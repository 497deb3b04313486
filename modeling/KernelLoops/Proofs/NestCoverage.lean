import KernelLoops.Proofs.ElementwiseNests
import KernelLoops.Proofs.Groups
import KernelLoops.Proofs.StrayLoops

set_option autoImplicit false

/-! # Coverage of elementwise nests

The loops of a nest get their markers one inside the other, so the marked kernel is a streaming body
wrapped in all of them. Lowered and simulated, it accesses the elements of its input and of its
output one by one, from the first to the last, and brings every tensor back unless a loop that
stands alone was evaluated once. -/

namespace KernelLoops

open List

variable {k m : Kernel} {c : Code} {p r x load store : Expr} {ys : List Expr} {info : LoopInfo}
  {bytes inc : Amount}
  {elementType : ElementType} {shape : List Amount} {ids inserted : List LoopId} {id : LoopId} {dst src : Tensor}

namespace Kernel.Streaming

variable {depth : Nat} (h : k.Streaming elementType shape inc depth src dst p r load store ys ids)

include h

theorem mem_sequence {y : Expr} (hy : y ∈ ys) : y ∈ k.sequence := by
  rw [h.lists.sequence]
  exact mem_cons_of_mem p (mem_append_left _ hy)

theorem loops_tags : LoopId.loops ids = ids := filter_eq_self.2 fun id hid => by rw [h.real hid]; rfl

/-- The interface lies in no loop, the body in all of them. -/
theorem grouped : k.Grouped Prod.fst Prod.snd
    [([p], replicate depth LoopId.null), (ys, ids), ([r], replicate depth LoopId.null)] where
  lists := by simpa using h.lists
  tagged := by
    simp only [forall_mem_cons, not_mem_nil, false_implies, implies_true, and_true]
    exact ⟨h.param.loopIds, h.tags, h.res.loopIds⟩
  once := by
    simp only [forall_mem_cons, not_mem_nil, false_implies, implies_true, LoopId.loops_replicate_null, h.loops_tags]
    exact ⟨nodup_nil, h.apart, nodup_nil, trivial⟩
  adjacent := by
    have hnull : Contiguous (fun id : LoopId => !id.isSentinel) (replicate depth LoopId.null) :=
      contiguous_of_forall_not fun id hid => by rw [eq_of_mem_replicate hid]; rfl
    simp only [forall_mem_cons, not_mem_nil, false_implies, implies_true, and_true]
    exact ⟨hnull, contiguous_of_forall fun id hid => by rw [h.real hid]; rfl, hnull⟩
  apart := by
    simp only [pairwise_cons, forall_mem_cons, not_mem_nil, false_implies, implies_true,
      LoopId.loops_replicate_null, h.loops_tags, List.Pairwise.nil, and_true, true_and]
    intro id hid hmem
    have hreal := h.real hid
    rw [eq_of_mem_replicate hmem] at hreal
    cases hreal
  boundary := by
    simp only [forall_mem_cons, not_mem_nil, false_implies, implies_true, LoopId.loops_replicate_null, h.loops_tags,
      and_true, true_and]
    intro id hid info hinfo q hq
    obtain ⟨_, _, _, _, hget, -, hspans⟩ := h.loops id hid
    obtain rfl := Option.some.inj (hget.symm.trans hinfo)
    rw [LoopInfo.ports, hspans.entries, hspans.exits] at hq
    rcases mem_pair.1 hq with rfl | rfl
    · exact ⟨load, h.first.1, rfl⟩
    · exact ⟨store, h.last.1, rfl⟩
  numbered := h.numbered

theorem exprs : ∀ x ∈ k.sequence, x.Plain k.loops := by
  have hblank : ∀ {x : Expr} {kind : OpKind} {ins outs : List Tensor}, x.Blank kind ins outs depth →
      kind = .parameter ∨ kind = .result → x.Plain k.loops := by
    intro x kind ins outs hx hkind
    refine ⟨?_, fun hk => ?_, fun hk => ?_, fun id hid hreal => ?_⟩
    · rw [hx.kind]
      rcases hkind with rfl | rfl <;> rfl
    · rw [hx.kind] at hk
      rcases hkind with rfl | rfl <;> simp at hk
    · rw [hx.kind] at hk
      rcases hkind with rfl | rfl <;> simp at hk
    · rw [hx.loopIds] at hid
      rw [eq_of_mem_replicate hid] at hreal
      cases hreal
  intro x hx
  rw [h.lists.sequence] at hx
  rcases mem_cons.1 hx with rfl | hx
  · exact hblank h.param (.inl rfl)
  rcases mem_append.1 hx with hx | hx
  · obtain ⟨u, v, hin, hout⟩ := h.chain.single hx
    refine ⟨?_, fun _ => hin ▸ cons_ne_nil u [], fun _ => hout ▸ cons_ne_nil v [], fun id hid _ => ?_⟩
    · rcases h.kinds x hx with hk | hk | hk <;> rw [hk] <;> rfl
    · rw [h.tags x hx] at hid
      obtain ⟨_, _, _, _, hinfo, -⟩ := h.loops id hid
      rw [hinfo]
      rfl
  · rw [mem_singleton.1 hx]
    exact hblank h.res (.inr rfl)

theorem unmarked : k.Unmarked where
  lists := h.lists.sequence ▸ h.lists
  plain x hx := (h.exprs x hx).marker

/-- What tags an expression and is registered is one of the loops. -/
theorem mem_of_get? (hx : x ∈ k.sequence) (hid : id ∈ x.loopIds)
    (hinfo : k.loops.get? id = some info) : id ∈ ids := by
  obtain ⟨g, hg, -, hmem⟩ := h.grouped.exists_of_get? hx hid hinfo
  simp only [mem_cons, not_mem_nil, or_false] at hg
  rcases hg with rfl | rfl | rfl
  · rw [LoopId.loops_replicate_null] at hmem
    cases hmem
  · exact (LoopId.mem_loops.1 hmem).1
  · rw [LoopId.loops_replicate_null] at hmem
    cases hmem

theorem insertable (hrank : shape.length ≤ 2 ^ 45) (hsizes : ∀ d ∈ shape, 0 ≤ d)
    (hbytes : elementType.size? = some bytes) (hid : id ∈ ids) : Markers.Insertable k id := by
  obtain ⟨info, outer, size, sizes, hinfo, hshape, hspans⟩ := h.loops id hid
  refine ⟨info, hinfo, ?_, fun around => ⟨_, _, h.loopParams hshape hrank hsizes hbytes hspans id around⟩⟩
  rw [LoopInfo.ports, hspans.entries]
  exact cons_ne_nil _ _

/-- The loops can be materialized, one inside the other around the body. -/
theorem mark (hinsert : ∀ id ∈ ids, Markers.Insertable k id) :
    ∃ changed m inserted ms, Markers.run k = .ok changed m ∧
      Markers.Marked k m inserted (.op p ((Code.wrap ms (.ofOps ys .done)).append (.op r .done))) ∧
      Markers.Around k false ids ms := by
  have hnone : ∀ {P : Prop}, LoopId.loops (replicate depth LoopId.null) ≠ [] → P := fun hne =>
    absurd (LoopId.loops_replicate_null depth) hne
  obtain ⟨changed, m, inserted, c, hrun, hm, hassembled⟩ := h.grouped.mark
    (by simp [ne_nil_of_mem h.first.1])
    (fun g hg x hx => (h.exprs x (h.grouped.mem_sequence hg hx)).marker)
    (forall_mem_cons.2 ⟨hnone, forall_mem_cons.2 ⟨fun _ => ⟨load, h.first.1, by
      simp [Markers.visited, h.first.2.1, OpKind.isMarker, OpKind.isInterface]⟩, forall_mem_singleton.2 hnone⟩⟩)
    (by simpa [LoopId.loops_replicate_null, h.loops_tags] using hinsert)
  rw [← h.loops_tags]
  cases hassembled with
  | cons outside hassembled =>
    cases hassembled with
    | @cons _ _ ms _ around hassembled =>
      cases hassembled with
      | cons outside' hassembled =>
        cases hassembled
        rw [LoopId.loops_replicate_null] at outside outside'
        cases outside
        cases outside'
        exact ⟨changed, m, inserted, ms, hrun, hm, around⟩

end Kernel.Streaming

theorem Kernel.IsNest.static (h : k.IsNest elementType shape inc src dst p r load store ys ids)
    (hsizes : ∀ d ∈ shape, 0 ≤ d ∧ d.isDynamic = false) (hinc : 0 < inc) (hknown : inc.isDynamic = false) :
    k.Static := by
  intro x hx id hid info hinfo
  obtain ⟨-, outer, size, sizes, hshape, hget⟩ := h.registered.mem (h.mem_of_get? hx hid hinfo)
  rw [hget] at hinfo
  obtain rfl := Option.some.inj hinfo
  obtain ⟨hsize, hsize'⟩ := hsizes size (by rw [hshape]; simp)
  refine ⟨hsize, hsize', ?_, ?_, ?_⟩
  · show 0 < if sizes = [] then inc else 1
    split
    · exact hinc
    · decide
  · show (if sizes = [] then inc else 1).isDynamic = false
    split
    · exact hknown
    · decide
  · show 2 < _
    decide

/-! ## The code of a marked nest -/

/-- A new marker makes a new tensor. -/
theorem Markers.Marked.le_outputs (hm : Marked k m inserted c) (hk : k.Unmarked) (hx : x ∈ c.flatten)
    (hmarker : x.kind.isMarker = true) {t : Tensor} (ht : t ∈ x.outputs) : k.nextTensor ≤ t.id := by
  obtain ⟨i, hi⟩ := getElem?_of_mem ht
  have hlink : (⟨t.id, ⟨x.id, .output, i⟩⟩ : Link) ∈ m.produced :=
    (hm.lists.produced _).2 ⟨x, hx, Edit.mem_links.2 ⟨rfl, rfl, t, hi, rfl⟩⟩
  obtain ⟨more, hmore, hnew⟩ := hm.produced
  rw [hmore, mem_append] at hlink
  rcases hlink with hlink | hlink
  · -- the producers of the kernel before are no markers
    obtain ⟨y, hy, hyl⟩ := (hk.lists.produced _).1 hlink
    have hid : x.id = y.id := (Edit.mem_links.1 hyl).1
    have hyc := hm.mem_flatten hy
    rw [hm.lists.eq_of_id hx hyc hid, hk.plain y hy] at hmarker
    cases hmarker
  · exact hnew _ hlink

section NestCode

variable {depth : Nat}

namespace Kernel.Streaming

variable (h : k.Streaming elementType shape inc depth src dst p r load store ys ids)

include h

/-- A closing marker steps both tensors by what lies inside the dimension of its loop. -/
theorem stepsBoth (hs : k.Static) (hrank : shape.length ≤ 2 ^ 45) (hsizes : ∀ d ∈ shape, 0 ≤ d)
    (hbytes : elementType.size? = some bytes) {outer sizes : List Amount} {size : Amount}
    (hshape : shape = outer ++ size :: sizes) {e : Expr} {l : LoopParams} {around : Bool} (hends : e.Ends k l around)
    (hid : l.id ∈ ids) (hinfo : k.loops.get? l.id = some info) (hspans : info.Spans load store sizes) :
    e.StepsBoth l src dst (volume sizes) ∧ l.workAmount = info.workAmount ∧ l.increment = info.increment ∧
      l.hasOuterLoop = around := by
  have hstatic : ∀ info ∈ k.loops.get? l.id, info.Static :=
    hs load (h.mem_sequence h.first.1) l.id (h.tags load h.first.1 ▸ hid)
  have hwhole := hends.whole hstatic
  obtain ⟨-, hdynamic, -⟩ := hstatic info hinfo
  obtain ⟨hloop, info', operands, tie, hget, hparams, hinputs⟩ := hends
  obtain rfl := Option.some.inj (hinfo.symm.trans hget)
  rw [h.loopParams hshape hrank hsizes hbytes hspans] at hparams
  obtain ⟨hl, hoperands⟩ := Prod.mk.inj (Except.ok.inj hparams)
  have hwork : l.workAmount = info.workAmount := by rw [← hl]
  have hsteps : l.ptrIncrements = [Int64.ofNat (volume sizes), Int64.ofNat (volume sizes)] := by rw [← hl]
  refine ⟨⟨hwhole, ?_, hsteps, ?_⟩, hwork, by rw [← hl], by rw [← hl]⟩
  · rw [LoopParams.Returns, hsteps, hwork, ← hl]
    simp [Markers.finalOffsets, hdynamic]
  · rw [hinputs, ← hoperands]
    rfl

/-- No marker makes the input. -/
theorem unmade (hm : Markers.Marked k m inserted c) (hx : x ∈ c.flatten)
    (hmarker : x.kind.isMarker = true) :
    ∀ t ∈ x.outputs, t.id ≠ src.id := by
  intro t ht
  have hle := hm.le_outputs h.unmarked hx hmarker ht
  have hlt := h.lists.known p mem_cons_self src (.inr (h.param.outputs ▸ mem_singleton_self src))
  exact Nat.ne_of_gt (Nat.lt_of_lt_of_le hlt hle)

end Kernel.Streaming

/-- The markers around the body of a nest go over its dimensions. -/
theorem Kernel.IsNest.nest (h : k.IsNest elementType shape inc src dst p r load store ys ids)
    (hs : k.Static)
    (hrank : shape.length ≤ 2 ^ 45) (hsizes : ∀ d ∈ shape, 0 ≤ d) (hbytes : elementType.size? = some bytes)
    {outer : Bool} {ids' : List LoopId} {ms : List (Expr × Expr)} (haround : Markers.Around k outer ids' ms)
    (hids : ∀ id ∈ ids', id ∈ ids) {above sizes : List Amount} {level : Nat} (hshape : shape = above ++ sizes)
    (hlevel : level = above.length)
    (hreg : Registered k.loops (Int64.ofNat shape.length) inc [load.inPort] [store.outPort] level sizes ids')
    {xs : List Expr} (hn : (Code.wrap ms (.ofOps ys .done)).Nested xs)
    (hfresh : ∀ x ∈ (Code.wrap ms (.ofOps ys .done)).flatten, x.kind.isMarker = true → ∀ t ∈ x.outputs, t.id ≠ src.id) :
    Nest src dst inc outer sizes ms := by
  induction hreg generalizing outer above ms with
  | nil level =>
    cases haround
    exact .nil outer
  | @cons level size sizes id ids' info once inside ih =>
    cases haround with
    | @cons _ _ _ b e l ms ends named inside' =>
      obtain ⟨htied, hnested, -⟩ := hn
      have hshape' : shape = above ++ [size] ++ sizes := by rw [hshape, append_cons]
      have hnest := ih inside' (fun i hi => hids i (mem_cons_of_mem _ hi)) hshape'
        (by rw [hlevel, length_append]; rfl) hnested fun x hx => hfresh x (by simp [Code.wrap, Code.flatten, hx])
      rw [← named, hlevel] at info
      obtain ⟨hsteps, hwork, hstep, hflag⟩ := h.stepsBoth hs hrank hsizes hbytes hshape ends
        (named ▸ hids _ mem_cons_self) info (levelLoop_spans hshape inc load store)
      refine .cons hsteps hwork hstep hflag ?_ hnest
      rintro t (ht | ht)
      · exact hfresh b (by simp [Code.wrap, Code.flatten]) (by rw [htied.opens]; rfl) t ht
      · exact hfresh e (by simp [Code.wrap, Code.flatten]) (by rw [htied.closes]; rfl) t ht

end NestCode

/-- A kernel whose loops can be materialized, lowered and simulated. -/
theorem Markers.Marked.pipeline {changed : Bool} (hm : Marked k m inserted c)
    (hrun : Markers.run k = .ok changed m)
    (hexprs : ∀ x ∈ k.sequence, x.Plain k.loops) (hloops : k.loops.Numbered) (hs : k.Static) {blocks : Expr → Bool}
    (hblocked : c.Blocked k.loops blocks) :
    ∃ trace, (Pipeline.run k [.markers, .tails]).failure = none ∧
      Simulation.run (Pipeline.run k [.markers, .tails]).kernel = .ok trace ∧
      ∀ T, trace.accessesOf T = ((c.cut blocks m [] m.nextTensor).1.trail T).accessesFrom T 0 ∧
        trace.position T = ((c.cut blocks m [] m.nextTensor).1.trail T).net := by
  obtain ⟨changed', k', trace, htails, hsim, htrace⟩ := hm.simulate_cut hexprs hloops hs hblocked m.config
  obtain ⟨hkernel, hfailure⟩ := Pipeline.run_cons_ok (p := .markers) hrun [.tails]
  obtain ⟨hkernel', hfailure'⟩ := Pipeline.run_cons_ok (p := .tails) htails []
  refine ⟨trace, hfailure.trans hfailure', ?_, htrace⟩
  rw [hkernel]
  exact (congrArg Simulation.run hkernel').trans hsim

/-- Splitting a loop does not depend on what follows it but for the names that are read there. -/
theorem Code.trail_cut_loop_append (blocks : Expr → Bool) (m : Kernel) (b e : Expr)
    (body rest : Code) (out : List TensorId)
    (n T : TensorId) : ∃ out' n', ((loop b e body rest).cut blocks m out n).1.trail T =
      ((loop b e body done).cut blocks m (rest.inputIds ++ out) n).1.trail T *
      (rest.cut blocks m out' n').1.trail T := by
  refine ⟨_, _, (trail_append T _ _).trans (congrArg (· * _) ?_)⟩
  exact ((trail_append T _ _).trans (mul_one _)).symm

/-- The interface accesses no memory: what a split kernel does to a tensor its outermost loop
    does. -/
theorem Kernel.Streaming.trail_cut {depth : Nat}
    (h : k.Streaming elementType shape inc depth src dst p r load store ys ids) (blocks : Expr → Bool) (m : Kernel)
    (b e : Expr) (body : Code) (n : TensorId) :
    ∃ out, dst.id ∈ out ∧ ∀ T, ((Code.op p (.loop b e body (.op r .done))).cut blocks m [] n).1.trail T =
      ((Code.loop b e body .done).cut blocks m out n).1.trail T := by
  have hquiet : ∀ (x : Expr) (T : TensorId), x.kind = .parameter ∨ x.kind = .result → x.trail T = 1 := by
    intro x T hkind
    refine Expr.trail_of_touched ?_ T
    rcases hkind with hk | hk <;> rw [Expr.touched, hk]
  refine ⟨(Code.op r .done).inputIds ++ (p.inputIds ++ []), mem_append_left _ ?_, fun T => ?_⟩
  · simp [Code.inputIds, Code.flatten, Expr.inputIds, h.res.inputs]
  · obtain ⟨out', n', hsplit⟩ := Code.trail_cut_loop_append blocks m b e body (.op r .done) (p.inputIds ++ []) n T
    refine (congrArg (· * _) (hquiet p T (.inl h.param.kind))).trans ((one_mul _).trans (hsplit.trans ?_))
    refine (congrArg (_ * ·) ?_).trans (mul_one _)
    exact (congrArg (· * _) (hquiet r T (.inr h.res.kind))).trans (one_mul 1)

/-- A nest, lowered and simulated: every tensor is back where it started unless the nest is a single
    loop, or has a single row, and loops are evaluated once; both tensors were swept. -/
theorem Kernel.IsNest.simulate (h : k.IsNest elementType shape inc src dst p r load store ys ids)
    (hne : shape ≠ [])
    (hrank : shape.length ≤ 2 ^ 45) (hsizes : ∀ d ∈ shape, 0 ≤ d ∧ d.isDynamic = false) (hinc : 0 < inc)
    (hknown : inc.isDynamic = false) (hbytes : elementType.size? = some bytes) :
    ∃ trace, (Pipeline.run k [.markers, .tails]).failure = none ∧
      Simulation.run (Pipeline.run k [.markers, .tails]).kernel = .ok trace ∧
      (∀ t ∈ [src, dst], trace.touched t.id = (range (volume shape)).map Int64.ofNat) ∧
      (k.config.evaluateOnce = false ∨ 2 ≤ shape.length ∧ shape.head? ≠ some 1 → ∀ T, trace.position T = 0) := by
  have hs := h.static hsizes hinc hknown
  have hsizes' : ∀ d ∈ shape, 0 ≤ d := fun d hd => (hsizes d hd).1
  obtain ⟨changed, m, inserted, ms, hrun, hm, haround⟩ := h.mark fun id => h.insertable hrank hsizes' hbytes
  obtain ⟨size, sizes, id, ids', rfl, rfl, -, -⟩ := h.registered.exists_cons hne
  rcases haround with - | @⟨_, _, _, b, e, l, ms, hends, hnamed, hinside⟩
  replace hm : Markers.Marked k m inserted (.op p (.loop b e (.wrap ms (.ofOps ys .done)) (.op r .done))) := hm
  obtain ⟨trace, hfailure, hsim, htrace⟩ :=
    hm.pipeline hrun h.exprs h.numbered hs (Code.blocked_of_plain h.table _)
  obtain ⟨-, htied, hnested, -⟩ := hm.nested
  have hnest := h.nest hs hrank hsizes' hbytes (.cons hends hnamed hinside) (fun _ hid => hid) (nil_append _).symm rfl
    h.registered ⟨htied, hnested, trivial⟩ fun x hx => h.unmade hm (by
      simp only [Code.wrap, Code.flatten, mem_cons, mem_append, not_mem_nil, or_false] at hx ⊢
      tauto)
  obtain ⟨out, hread, htrail⟩ :=
    h.trail_cut (fun _ => false) m b e (.wrap ms (.ofOps ys .done)) m.nextTensor
  have hlower := fun T => hnest.trail_lower h.streams m hread m.nextTensor T
  simp only [htrail] at htrace
  refine ⟨trace, hfailure, hsim, fun t ht => ?_, fun hcond T => ?_⟩
  · rw [Trace.touched, (htrace t.id).1, Trail.flatMap_elements_accessesFrom]
    refine (hlower t.id).1 ?_
    rcases mem_cons.1 ht with rfl | ht
    · exact .inl rfl
    · exact .inr (mem_singleton.1 ht ▸ rfl)
  · rw [(htrace T).2]
    refine (hlower T).2 ?_
    rw [hm.config]
    rcases hcond with hevery | ⟨hlong, hrow⟩
    · exact .inl hevery
    · refine .inr (.inr ⟨?_, fun hone => hrow (congrArg some hone)⟩)
      rintro rfl
      simp at hlong

/-! ## Coverage -/

/-- Coverage of elementwise nests of any rank: for any sizes, increment, operations and
    configuration the nest can be built, lowered and simulated, and the simulated run touches the
    elements of the input and of the output from the first to the last, each one once. Every tensor
    is back where it started where loops are not evaluated once, and where there are two or more
    loops and the outermost one does not run over a single row. -/
theorem Simulation.touched_elementwiseNest (config : Config) {elementType : ElementType}
    (hsized : elementType.size?.isSome) {shape : List Amount} (hne : shape ≠ []) (hroom : shape.length ≤ 2 ^ 45)
    (hsizes : ∀ d ∈ shape, 0 ≤ d ∧ d < 0x4000000000000000) (hvolume : volume shape < 2 ^ 62) {inc : Amount}
    (hinc : 1 ≤ inc) (hknown : inc < Amount.dynamic) (ops : List String) :
    ∃ src dst b trace,
      Build.elementwiseNest shape inc ops (.start config elementType (Int64.ofNat shape.length) inc) =
        .ok (src, dst) b ∧
      (Pipeline.run b.kernel [.markers, .tails]).failure = none ∧
      Simulation.run (Pipeline.run b.kernel [.markers, .tails]).kernel = .ok trace ∧
      (∀ t ∈ [src, dst], (trace.touched t.id).map Int64.toInt = (range (volume shape)).map Int.ofNat) ∧
      (config.evaluateOnce = false ∨ 2 ≤ shape.length ∧ shape.head? ≠ some 1 → ∀ T, trace.position T = 0) := by
  obtain ⟨bytes, hbytes⟩ := Option.isSome_iff_exists.1 hsized
  obtain ⟨src, dst, b, p, r, load, store, ys, ids, hrun, hnest, hconfig⟩ :=
    Build.elementwiseNest_run config elementType shape inc ops hroom
  have hdynamic : ∀ {d : Amount}, d < Amount.dynamic → d.isDynamic = false := by
    intro d hd
    rw [Amount.isDynamic, beq_eq_false_iff_ne]
    rintro rfl
    exact absurd hd (Int64.lt_irrefl)
  obtain ⟨trace, hfailure, hsim, htouched, hposition⟩ := hnest.simulate hne hroom
    (fun d hd => ⟨(hsizes d hd).1, hdynamic (Int64.lt_trans (hsizes d hd).2 (by decide))⟩)
    (Int64.lt_of_lt_of_le (by decide) hinc) (hdynamic hknown) hbytes
  refine ⟨src, dst, b, trace, hrun, hfailure, hsim, fun t ht => ?_, fun hcond => hposition (hconfig ▸ hcond)⟩
  rw [htouched t ht, map_map]
  refine map_congr_left fun i hi => ?_
  have hlt := mem_range.1 hi
  exact Int64.toInt_ofNat_of_lt (by omega)

/-- Two matrices of three rows and seventeen columns, in steps of eight: two whole steps and a tail
    in each row. -/
theorem Simulation.touched_elementwiseNest_rows :
    ElementType.float32.size?.isSome ∧ [3, 17] ≠ ([] : List Amount) ∧ [(3 : Amount), 17].length ≤ 2 ^ 45 ∧
    (∀ d ∈ [(3 : Amount), 17], 0 ≤ d ∧ d < 0x4000000000000000) ∧ volume [3, 17] < 2 ^ 62 ∧
    (1 : Amount) ≤ 8 ∧ (8 : Amount) < Amount.dynamic ∧ ∃ src dst b trace,
      Build.elementwiseNest [3, 17] 8 ["Exp"] (.start {} .float32 2 8) = .ok (src, dst) b ∧
      (Pipeline.run b.kernel [.markers, .tails]).failure = none ∧
      Simulation.run (Pipeline.run b.kernel [.markers, .tails]).kernel = .ok trace ∧
      (∀ t ∈ [src, dst], (trace.touched t.id).map Int64.toInt = (range (volume [3, 17])).map Int.ofNat) ∧
      (({} : Config).evaluateOnce = false ∨ 2 ≤ [(3 : Amount), 17].length ∧ [(3 : Amount), 17].head? ≠ some 1 →
        ∀ T, trace.position T = 0) :=
  have hsized : ElementType.float32.size?.isSome := by decide
  have hne : [3, 17] ≠ ([] : List Amount) := by decide
  have hroom : [(3 : Amount), 17].length ≤ 2 ^ 45 := by decide
  have hsizes : ∀ d ∈ [(3 : Amount), 17], 0 ≤ d ∧ d < 0x4000000000000000 :=
    forall_mem_cons.2 ⟨⟨by decide, by decide⟩, forall_mem_singleton.2 ⟨by decide, by decide⟩⟩
  have hvolume : volume [3, 17] < 2 ^ 62 := by decide
  have hinc : (1 : Amount) ≤ 8 := by decide
  have hknown : (8 : Amount) < Amount.dynamic := by decide
  ⟨hsized, hne, hroom, hsizes, hvolume, hinc, hknown,
    Simulation.touched_elementwiseNest {} hsized hne hroom hsizes hvolume hinc hknown ["Exp"]⟩

end KernelLoops
