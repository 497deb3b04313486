import KernelLoops.Proofs.BlockTails
import KernelLoops.Proofs.NestCoverage

set_option autoImplicit false

/-! # Blocked nests

Kernels that apply operations to a matrix row by row, where a row is cut into blocks and a loop
inside goes over each block. All three loops are lowered, and the simulated run accesses each
element once only for some sizes: what is left behind the last whole block is not always gone over
as a block is. -/

namespace KernelLoops

open List

variable {b1 b2 b3 e1 e2 e3 : Expr} {l1 l2 l3 : LoopParams} {bytes : Amount} {split : Bool}
  {sizes : List Amount}
  {id : LoopId}

/-- Applies operations to all elements of a matrix, in a loop over its rows, one over the blocks of
    a row and one over a block, in steps of `inc` elements. The answer is the input and the
    output. -/
def Build.blockedNest (rows columns block inc : Amount) (ops : List String) :
    Build (Tensor × Tensor) := do
  let src ← parameter [rows, columns]
  let m ← mark
  let v ← load src
  let w ← chain ops v
  let dst ← store w
  let _ ← loop m 2 block inc
  let blocks ← loop m 1 columns block
  let around ← loop m 0 rows 1
  edit (Edit.modifyLoop blocks fun info => { info with dim := 0, split := true })
  edit (Edit.modifyLoop around fun info => { info with dim := 1 })
  result dst
  return (src, dst)

/-! ## The kernel -/

/-- The table holds a loop over the dimension with `sizes` inside, with its work and its step, cut
    into blocks or not. -/
def LoopTable.Spans (t : LoopTable) (id : LoopId) (load store : Expr) (sizes : List Amount)
    (work step : Amount) (split : Bool) : Prop :=
  ∃ info, t.get? id = some info ∧ info.Spans load store sizes ∧ info.workAmount = work ∧
    info.increment = step ∧ info.split = split

/-- The ports of a loop do not depend on tags. -/
theorem LoopTable.Spans.retag {t : LoopTable} {load store : Expr} {work step : Amount}
    (h : t.Spans id load store sizes work step split) (ids : List LoopId) :
    t.Spans id (load.retag ids) (store.retag ids) sizes work step split := by
  obtain ⟨info, hinfo, hspans, hparams⟩ := h
  exact ⟨info, hinfo, ⟨hspans.entries, hspans.exits, hspans.dim⟩, hparams⟩

/-- A kernel that streams a matrix to another one, in a loop over the rows, one over the blocks of a
    row and one over a block. -/
structure Kernel.IsBlockedNest (k : Kernel) (elementType : ElementType)
    (rows columns block inc : Amount) (src dst : Tensor)
    (p r load store : Expr) (ys : List Expr) (around blocks inside : LoopId) : Prop
    extends k.Streaming elementType [rows, columns] inc 3 src dst p r load store ys [around, blocks, inside] where
  rowLoop : k.loops.Spans around load store [columns] rows 1 false
  blockLoop : k.loops.Spans blocks load store [] columns block true
  stepLoop : k.loops.Spans inside load store [] block inc false

/-- Building a blocked nest gives the kernel of the nest. -/
theorem Build.blockedNest_run (config : Config) (elementType : ElementType)
    (rows columns block inc : Amount) (ops : List String) :
    ∃ src dst b p r load store ys around blocks inside,
      blockedNest rows columns block inc ops (.start config elementType 3 inc) = .ok (src, dst) b ∧
      b.kernel.IsBlockedNest elementType rows columns block inc src dst p r load store ys around blocks inside ∧
      b.kernel.config = config := by
  have hdepth : storage 8 (3 : Amount) = .ok 3 := rfl
  obtain ⟨src, v, w, dst, b1, b2, b3, b4, p, load, store, quiet, n, hparam, hmark, hload, hchain, hstore, h⟩ :=
    stream_run config elementType hdepth [rows, columns] inc ops
  obtain ⟨b5, hinside, h5⟩ := h.untagged.loop 2 (by decide) (by decide) block inc (h.entriesOf _ _ h.untagged.lists)
    (h.exitsOf _ _ h.untagged.lists)
  obtain ⟨b6, hblocks, h6⟩ := h5.loop 1 (by simp) (by decide) columns block (h.entriesOf _ _ h5.lists) (h.exitsOf _ _ h5.lists)
  obtain ⟨b7, haround, h7⟩ := h6.loop 0 (by simp) (by decide) rows 1 (h.entriesOf _ _ h6.lists) (h.exitsOf _ _ h6.lists)
  obtain ⟨b8, hsplit, h8⟩ := h7.modifyLoop 1 fun info => { info with dim := 0, split := true }
  obtain ⟨b9, hdim, h9⟩ := h8.modifyLoop 2 fun info => { info with dim := 1 }
  obtain ⟨r, b', hresult, h', hr⟩ := h9.result hdepth dst h.known
  have hrow : b'.kernel.loops.Spans 2 load store [columns] rows 1 false := by
    rw [h'.loops]
    exact ⟨_, rfl, ⟨rfl, rfl, rfl⟩, rfl, rfl, rfl⟩
  have hblock : b'.kernel.loops.Spans 1 load store [] columns block true := by
    rw [h'.loops]
    exact ⟨_, rfl, ⟨rfl, rfl, rfl⟩, rfl, rfl, rfl⟩
  have hstep : b'.kernel.loops.Spans 0 load store [] block inc false := by
    rw [h'.loops]
    exact ⟨_, rfl, ⟨rfl, rfl, show (3 : Amount) - 1 - 2 = 0 by decide⟩, rfl, rfl, rfl⟩
  have hnumbered : b'.kernel.loops.Numbered := by
    rw [h'.loops]
    exact ((((LoopTable.Numbered.mk (by simp)).insert _).insert _).insert _).modify 1 _ |>.modify 2 _
  have hspans : ∀ id ∈ [(2 : LoopId), 1, 0], ∃ info outer size sizes, b'.kernel.loops.get? id = some info ∧
      [rows, columns] = outer ++ size :: sizes ∧ info.Spans load store sizes := by
    obtain ⟨info2, hinfo2, hspans2, -⟩ := hrow
    obtain ⟨info1, hinfo1, hspans1, -⟩ := hblock
    obtain ⟨info0, hinfo0, hspans0, -⟩ := hstep
    intro id hid
    rcases mem_cons.1 hid with rfl | hid
    · exact ⟨info2, [], rows, [columns], hinfo2, rfl, hspans2⟩
    rcases mem_pair.1 hid with rfl | rfl
    · exact ⟨info1, [rows], columns, [], hinfo1, rfl, hspans1⟩
    · exact ⟨info0, [rows], columns, [], hinfo0, rfl, hspans0⟩
  have hstreaming : b'.kernel.Streaming elementType [rows, columns] inc 3 src dst p r
    (load.retag [2, 1, 0]) (store.retag [2, 1, 0])
      ((load :: (quiet ++ [store])).map (Expr.retag [2, 1, 0])) [2, 1, 0] :=
    h.streaming h' hr (by decide) (h'.loops ▸ hspans) (h'.loops ▸ hnumbered)
  refine ⟨src, dst, b', p, r, load.retag [2, 1, 0], store.retag [2, 1, 0],
    (load :: (quiet ++ [store])).map (Expr.retag [2, 1, 0]),
    2, 1, 0, ?_, ⟨hstreaming, hrow.retag _, hblock.retag _, hstep.retag _⟩, h'.config⟩
  unfold blockedNest
  refine (bind_run_ok hparam).trans ((bind_run_ok hmark).trans ((bind_run_ok hload).trans ?_))
  refine (bind_run_ok hchain).trans
    ((bind_run_ok hstore).trans ((bind_run_ok hinside).trans ((bind_run_ok hblocks).trans ?_)))
  refine (bind_run_ok haround).trans ((bind_run_ok hsplit).trans ((bind_run_ok hdim).trans ?_))
  exact bind_run_ok hresult

/-! ## Its code -/

/-- The marker closes the loop `id`, which steps both tensors by `stride` elements per unit of
    work. -/
structure Expr.ClosesLoop (e : Expr) (l : LoopParams) (src dst : Tensor) (id : LoopId)
    (stride : Nat) (work step : Amount)
    (outer : Bool) : Prop extends e.StepsBoth l src dst stride where
  id : l.id = id
  work : l.workAmount = work
  step : l.increment = step
  outer : l.hasOuterLoop = outer

/-- Does the marker close the loop? -/
def Expr.isEndOf (id : LoopId) (e : Expr) : Bool := e.loop.any fun l => decide (l.id = id)

namespace Kernel.IsBlockedNest

variable {k : Kernel} {elementType : ElementType} {rows columns block inc : Amount}
  {src dst : Tensor} {p r load store : Expr}
  {ys : List Expr} {around blocks inside : LoopId}
  (h : k.IsBlockedNest elementType rows columns block inc src dst p r load store ys around blocks inside)

include h

/-- All sizes of the loops are known. -/
theorem static (hrows : 0 < rows) (hcolumns : 0 < columns) (hblock : 0 < block) (hinc : 0 < inc)
    (hknown : ∀ d ∈ [rows, columns, block, inc], d.isDynamic = false) : k.Static := by
  have hspans : ∀ {id : LoopId} {sizes : List Amount} {work step : Amount} {split : Bool},
      k.loops.Spans id load store sizes work step split → 0 < work → 0 < step →
        work.isDynamic = false → step.isDynamic = false →
      ∀ info ∈ k.loops.get? id, info.Static := by
    rintro id sizes work step split ⟨info, hinfo, hspans, rfl, rfl, -⟩ hwork hstep hwork' hstep' info' hinfo'
    obtain rfl := Option.some.inj (hinfo.symm.trans hinfo')
    refine ⟨Int64.le_of_lt hwork, hwork', hstep, hstep', ?_⟩
    rw [LoopInfo.ports, hspans.entries, hspans.exits]
    show 2 < 0x8000000000000000
    decide
  intro x hx id hid info hinfo
  rcases mem_cons.1 (h.mem_of_get? hx hid hinfo) with rfl | hids
  · exact hspans h.rowLoop hrows (by decide) (hknown _ (by simp)) (by decide) info hinfo
  rcases mem_pair.1 hids with rfl | rfl
  · exact hspans h.blockLoop hcolumns hblock (hknown _ (by simp)) (hknown _ (by simp)) info hinfo
  · exact hspans h.stepLoop hblock hinc (hknown _ (by simp)) (hknown _ (by simp)) info hinfo

theorem closesLoop (hs : k.Static) (hsizes : ∀ d ∈ [rows, columns], 0 ≤ d)
    (hbytes : elementType.size? = some bytes)
    {work step : Amount} (hspans : k.loops.Spans id load store sizes work step split)
    (hid : id ∈ [around, blocks, inside]) (before : List Amount) {size : Amount}
    (hshape : [rows, columns] = before ++ size :: sizes) {e : Expr} {l : LoopParams} {outer : Bool}
    (hends : e.Ends k l outer) (hl : l.id = id) : e.ClosesLoop l src dst id (volume sizes) work step outer := by
  subst hl
  obtain ⟨info, hinfo, hspans, rfl, rfl, -⟩ := hspans
  obtain ⟨hsteps, hwork, hstep, houter⟩ :=
    h.stepsBoth hs (show 2 ≤ 2 ^ 45 by decide) hsizes hbytes hshape hends hid hinfo hspans
  exact ⟨hsteps, rfl, hwork, hstep, houter⟩

/-- The markers of a nest close its three loops. -/
theorem exists_markers (hs : k.Static) (hsizes : ∀ d ∈ [rows, columns], 0 ≤ d)
    (hbytes : elementType.size? = some bytes) {ms : List (Expr × Expr)}
    (haround : Markers.Around k false [around, blocks, inside] ms) :
    ∃ b1 e1 b2 e2 b3 e3 l1 l2 l3, ms = [(b1, e1), (b2, e2), (b3, e3)] ∧
      e1.ClosesLoop l1 src dst around (volume [columns]) rows 1 false ∧
        e2.ClosesLoop l2 src dst blocks 1 columns block true ∧
      e3.ClosesLoop l3 src dst inside 1 block inc true := by
  rcases haround with - | @⟨_, _, _, b1, e1, l1, _, hends1, hid1, haround⟩
  rcases haround with - | @⟨_, _, _, b2, e2, l2, _, hends2, hid2, haround⟩
  rcases haround with - | @⟨_, _, _, b3, e3, l3, _, hends3, hid3, haround⟩
  cases haround
  refine ⟨b1, e1, b2, e2, b3, e3, l1, l2, l3, rfl, ?_, ?_, ?_⟩
  · exact h.closesLoop hs hsizes hbytes h.rowLoop (by simp) [] rfl hends1 hid1
  · exact h.closesLoop hs hsizes hbytes h.blockLoop (by simp) [rows] rfl hends2 hid2
  · exact h.closesLoop hs hsizes hbytes h.stepLoop (by simp) [rows] rfl hends3 hid3

/-- Only the loop over the blocks is cut into blocks, and the loop inside it goes over the same
    dimension. -/
theorem blocked {n1 n2 n3 : Nat} {w1 s1 w2 s2 w3 s3 : Amount} {o1 o2 o3 : Bool}
    (h1 : e1.ClosesLoop l1 src dst around n1 w1 s1 o1) (h2 : e2.ClosesLoop l2 src dst blocks n2 w2 s2 o2)
    (h3 : e3.ClosesLoop l3 src dst inside n3 w3 s3 o3) :
    (Code.op p (.loop b1 e1 (.loop b2 e2 (.loop b3 e3 (.ofOps ys .done) .done) .done) (.op r .done))).Blocked k.loops
      (Expr.isEndOf blocks) := by
  have hcuts : ∀ {id : LoopId} {sizes : List Amount} {work step : Amount} {split : Bool},
      k.loops.Spans id load store sizes work step split → ∀ {e : Expr} {l : LoopParams}, e.loop = some l → l.id = id →
      decide (id = blocks) = split → ∀ {body : Code}, (split = true → body.Along k.loops (Int64.ofNat sizes.length)) →
      ∀ l', e.loop = some l' → Code.Cuts k.loops (e.isEndOf blocks) l' body := by
    rintro id sizes work step split ⟨info, hinfo, hspans, -, -, hsplit⟩ e l hl rfl hflag body halong l' hl' info' hinfo'
    obtain rfl := Option.some.inj (hl.symm.trans hl')
    obtain rfl := Option.some.inj (hinfo.symm.trans hinfo')
    have hend : e.isEndOf blocks = split := by
      rw [Expr.isEndOf, hl, ← hflag]
      rfl
    rw [hend, hspans.dim]
    exact ⟨hsplit, halong⟩
  have hapart := h.apart
  simp only [nodup_cons, mem_cons, not_mem_nil, or_false, not_or] at hapart
  obtain ⟨⟨hne, -⟩, hne', -⟩ := hapart
  have halong : (Code.loop b3 e3 (.ofOps ys .done) .done).Along k.loops 0 := by
    obtain ⟨info, hinfo, hspans, -⟩ := h.stepLoop
    have hnone : (Code.ofOps ys .done).Along k.loops 0 := fun id hid => by
      rw [Code.names_ofOps] at hid
      cases hid
    exact hnone.loop b3 h3.whole.closes.params (h3.id ▸ hinfo) hspans.dim
  have hwhole : ∀ {dim : Amount} {body : Code}, false = true → body.Along k.loops dim :=
    fun hfalse => absurd hfalse Bool.false_ne_true
  have hdone : Code.done.Blocked k.loops (Expr.isEndOf blocks) := trivial
  exact ⟨hcuts h.rowLoop h1.whole.closes.params h1.id (decide_eq_false hne) hwhole,
    ⟨hcuts h.blockLoop h2.whole.closes.params h2.id (decide_eq_true rfl) fun _ => halong,
      ⟨hcuts h.stepLoop h3.whole.closes.params h3.id (decide_eq_false (Ne.symm hne')) hwhole,
        hdone.ofOps ys, hdone⟩, hdone⟩, hdone⟩

/-- What the split nest does to both tensors: rows of blocks, one behind the other. -/
theorem exists_row (h1 : e1.ClosesLoop l1 src dst around (volume [columns]) rows 1 false)
    (h2 : e2.ClosesLoop l2 src dst blocks 1 columns block true)
    (h3 : e3.ClosesLoop l3 src dst inside 1 block inc true) (hcolumns : 0 ≤ columns) (hfull : inc ≤ block)
    (hunmade : ∀ t, t ∈ b3.outputs ∨ t ∈ e3.outputs → t.id ≠ src.id) (m : Kernel) (out : List TensorId) (n : TensorId)
    {T : TensorId} (hT : T = src.id ∨ T = dst.id) :
    ∃ row, RowOfBlocks columns block inc row ∧
      (((Code.loop b1 e1 (.loop b2 e2 (.loop b3 e3 (.ofOps ys .done) .done) .done) .done).cut
      (Expr.isEndOf blocks) m out n).1.trail
        T).elements = ((row * .move columns) ^ rows.trips).elements := by
  have hapart := h.apart
  simp only [nodup_cons, mem_cons, not_mem_nil, or_false, not_or] at hapart
  obtain ⟨⟨hne, -⟩, hne', -⟩ := hapart
  have hend : ∀ {e : Expr} {l : LoopParams} {id : LoopId} {n : Nat} {w s : Amount} {o : Bool},
      e.ClosesLoop l src dst id n w s o → e.isEndOf blocks = decide (id = blocks) := by
    intro e l id n w s o he
    rw [Expr.isEndOf, he.whole.closes.params, ← he.id]
    rfl
  -- both tensors are read by the markers of the loop around, so that both keep their names
  have hread : ∀ {e : Expr} {l : LoopParams} {stride : Nat} (ids ids' : List TensorId), e.StepsBoth l src dst stride →
      src.id ∈ ids ++ (e.inputIds ++ ids') ∧ dst.id ∈ ids ++ (e.inputIds ++ ids') := by
    intro e l stride ids ids' he
    have hmem : ∀ t ∈ [src, dst], t.id ∈ e.inputIds := fun t ht =>
      mem_map_of_mem (mem_of_mem_take (he.operands.symm ▸ ht))
    exact ⟨by simp [hmem src (by simp)], by simp [hmem dst (by simp)]⟩
  rw [Code.cut_loop_done, Code.cut_loop_done, Code.cut_loop_done, Code.cut_ofOps, hend h1, hend h2,
    hend h3, decide_eq_false hne,
    decide_eq_true rfl, decide_eq_false (Ne.symm hne')]
  let out2 := b1.inputIds ++ (e1.inputIds ++ out)
  let out3 := b2.inputIds ++ (e2.inputIds ++ out2)
  let inner := Code.splitLoop m b3 e3 (.ofOps ys .done) out3 n
  let split := Code.cutLoop true m b2 e2 inner.1 out2 inner.2
  have hrow : RowOfBlocks l2.workAmount l3.workAmount inc (split.1.trail T) :=
    Code.trail_cutLoop_blocks h.streams h3.toStepsBoth h2.toStepsBoth h3.step
      (h2.step.trans h3.work.symm) h3.outer h2.outer
      (h3.work.symm ▸ hfull) hunmade m (hread _ _ h2.toStepsBoth) (hread _ _ h1.toStepsBoth) n inner.2 hT
  rw [h2.work, h3.work] at hrow
  refine ⟨split.1.trail T, hrow, ?_⟩
  have heven := LoopParams.mod_of_one h1.step
  obtain ⟨_, -, hspans, -⟩ := Code.trail_cutLoop h1.whole h1.returns false m b1 split.1 out split.2 T
    fun hrest => absurd heven hrest
  have hrate : l1.rate T e1.inputs = columns := by
    rw [h1.rate h.streams.apart T, if_pos hT, volume_cons, show volume [] = 1 from rfl, Nat.mul_one,
      Amount.ofNat_trips hcolumns]
  have helements := congrArg (fun spans : List (Amount × Amount) => (Trail.mk spans 0).elements) hspans
  refine helements.trans ?_
  show (LoopParams.sweep l1 _ _ _).elements = _
  rw [LoopParams.sweep, if_pos heven, mul_one, Trail.elements_mul_move, hrate, h1.step, h1.work,
    Int64.mul_one, Int64.div_one]

/-- A blocked nest, lowered and simulated: when each element of both tensors is accessed once. -/
theorem simulate (hrows : 1 ≤ rows) (hcolumns : 1 ≤ columns) (hinc : 1 ≤ inc) (hfull : inc ≤ block)
    (hsmall : block < 0x4000000000000000) (hvolume : volume [rows, columns] < 2 ^ 62)
    (hbytes : elementType.size? = some bytes) :
    ∃ trace, (Pipeline.run k [.markers, .tails]).failure = none ∧
      Simulation.run (Pipeline.run k [.markers, .tails]).kernel = .ok trace ∧
      ∀ t ∈ [src, dst],
        ((trace.touched t.id).map Int64.toInt).Perm ((range (volume [rows, columns])).map Int.ofNat) ↔
          columns % block = 0 ∨ block % inc = 0 ∧
            (inc = 1 ∨ columns % block ≤ inc ∨ rows = 1 ∧ columns % block < 2 * inc) := by
  have hpos : ∀ {d : Amount}, 1 ≤ d → 0 < d := fun hd => Int64.lt_of_lt_of_le (by decide) hd
  have harea : volume [rows, columns] = rows.trips * columns.trips := by
    rw [volume_cons, volume_cons, show volume [] = 1 from rfl, Nat.mul_one]
  rw [harea] at hvolume ⊢
  have hknown : ∀ d ∈ [rows, columns, block, inc], d.isDynamic = false := by
    have hless : ∀ {d : Amount}, d.toInt < 0x4000000000000000 → d.isDynamic = false := fun hd =>
      Amount.isDynamic_of_lt (Amount.lt_iff.2 (Int.lt_trans hd (by decide)))
    have hblock' : block.toInt < 0x4000000000000000 := Amount.lt_iff.1 hsmall
    have hinc' : inc.toInt ≤ block.toInt := Amount.le_iff.1 hfull
    have hrows' := Nat.le_mul_of_pos_right rows.trips (Amount.trips_pos (hpos hcolumns))
    have hcolumns' := Nat.le_mul_of_pos_left columns.trips (Amount.trips_pos (hpos hrows))
    simp only [Amount.trips] at hrows' hcolumns' hvolume
    simp only [forall_mem_cons, not_mem_nil, false_implies, implies_true, and_true]
    exact ⟨hless (by omega), hless (by omega), hless hblock', hless (by omega)⟩
  have hsizes : ∀ d ∈ [rows, columns], 0 ≤ d := by
    intro d hd
    rcases mem_pair.1 hd with rfl | rfl
    · exact Int64.le_of_lt (hpos hrows)
    · exact Int64.le_of_lt (hpos hcolumns)
  have hblock : 0 < block := Int64.lt_of_lt_of_le (hpos hinc) hfull
  have hs := h.static (hpos hrows) (hpos hcolumns) hblock (hpos hinc) hknown
  obtain ⟨changed, m, inserted, ms, hrun, hm, haround⟩ :=
    h.mark fun id => h.insertable (show 2 ≤ 2 ^ 45 by decide) hsizes hbytes
  obtain ⟨b1, e1, b2, e2, b3, e3, l1, l2, l3, rfl, h1, h2, h3⟩ := h.exists_markers hs hsizes hbytes haround
  replace hm : Markers.Marked k m inserted
    (.op p (.loop b1 e1 (.loop b2 e2 (.loop b3 e3 (.ofOps ys .done) .done) .done) (.op r .done))) := hm
  obtain ⟨trace, hfailure, hsim, htrace⟩ := hm.pipeline hrun h.exprs h.numbered hs (h.blocked h1 h2 h3)
  obtain ⟨out, -, htrail⟩ := h.trail_cut (Expr.isEndOf blocks) m b1 e1
    (.loop b2 e2 (.loop b3 e3 (.ofOps ys .done) .done) .done) m.nextTensor
  have hunmade : ∀ t, t ∈ b3.outputs ∨ t ∈ e3.outputs → t.id ≠ src.id := by
    obtain ⟨-, -, ⟨-, ⟨htied, -⟩, -⟩, -⟩ := hm.nested
    rintro t (ht | ht)
    · exact h.unmade hm (x := b3) (by simp [Code.flatten]) (by rw [htied.opens]; rfl) t ht
    · exact h.unmade hm (x := e3) (by simp [Code.flatten]) (by rw [htied.closes]; rfl) t ht
  refine ⟨trace, hfailure, hsim, fun t ht => ?_⟩
  have hT : t.id = src.id ∨ t.id = dst.id := by
    rcases mem_pair.1 ht with rfl | rfl
    · exact .inl rfl
    · exact .inr rfl
  obtain ⟨row, hrow, helements⟩ := h.exists_row h1 h2 h3 (hsizes columns (by simp)) hfull hunmade m out m.nextTensor hT
  have hrange : (range (rows.trips * columns.trips)).map Int.ofNat =
      ((range (rows.trips * columns.trips)).map Int64.ofNat).map Int64.toInt := by
    rw [map_map]
    refine map_congr_left fun i hi => ?_
    have hlt := mem_range.1 hi
    exact (Int64.toInt_ofNat_of_lt (by omega)).symm
  rw [hrange, map_perm_map_iff fun a b h => Int64.toInt_inj.1 h, Trace.touched, (htrace t.id).1,
    Trail.flatMap_elements_accessesFrom, htrail, helements]
  exact hrow.perm_iff hrows hcolumns hblock hinc (Int64.lt_of_le_of_lt hfull hsmall) (by omega)

end Kernel.IsBlockedNest

/-! ## Coverage -/

/-- Coverage of blocked nests: for any rows, columns, block and step, operations and configuration
    the nest can be built, lowered and simulated. The simulated run accesses each element of the
    input and of the output once, and no other, exactly if the rows are all blocks; or if the blocks
    are all steps, and the steps are single elements, or what is left of a row fits in one step, or
    there is a single row and less than two steps are left of it. -/
theorem Simulation.touched_blockedNest (config : Config) {elementType : ElementType}
    (hsized : elementType.size?.isSome)
    {rows columns block inc : Amount} (hrows : 1 ≤ rows) (hcolumns : 1 ≤ columns) (hinc : 1 ≤ inc) (hfull : inc ≤ block)
    (hsmall : block < 0x4000000000000000) (hvolume : volume [rows, columns] < 2 ^ 62) (ops : List String) :
    ∃ src dst b trace,
      Build.blockedNest rows columns block inc ops (.start config elementType 3 inc) = .ok (src, dst) b ∧
      (Pipeline.run b.kernel [.markers, .tails]).failure = none ∧
      Simulation.run (Pipeline.run b.kernel [.markers, .tails]).kernel = .ok trace ∧
      ∀ t ∈ [src, dst],
        ((trace.touched t.id).map Int64.toInt).Perm ((range (volume [rows, columns])).map Int.ofNat) ↔
          columns % block = 0 ∨ block % inc = 0 ∧
            (inc = 1 ∨ columns % block ≤ inc ∨ rows = 1 ∧ columns % block < 2 * inc) := by
  obtain ⟨bytes, hbytes⟩ := Option.isSome_iff_exists.1 hsized
  obtain ⟨src, dst, b, p, r, load, store, ys, around, blocks, inside, hrun, hnest, -⟩ :=
    Build.blockedNest_run config elementType rows columns block inc ops
  obtain ⟨trace, hfailure, hsim, hperm⟩ := hnest.simulate hrows hcolumns hinc hfull hsmall hvolume hbytes
  exact ⟨src, dst, b, trace, hrun, hfailure, hsim, hperm⟩

/-- Two rows of eleven columns, in blocks of eight and steps of four: three elements are left of a
    row, and one step is enough. -/
theorem Simulation.touched_blockedNest_one_step :
    ElementType.float32.size?.isSome ∧ (1 : Amount) ≤ 2 ∧ (1 : Amount) ≤ 11 ∧ (1 : Amount) ≤ 4 ∧ (4 : Amount) ≤ 8 ∧
    (8 : Amount) < 0x4000000000000000 ∧ volume [2, 11] < 2 ^ 62 ∧ ∃ src dst b trace,
      Build.blockedNest 2 11 8 4 ["Exp"] (.start {} .float32 3 4) = .ok (src, dst) b ∧
      (Pipeline.run b.kernel [.markers, .tails]).failure = none ∧
      Simulation.run (Pipeline.run b.kernel [.markers, .tails]).kernel = .ok trace ∧
      ∀ t ∈ [src, dst],
        ((trace.touched t.id).map Int64.toInt).Perm ((range (volume [2, 11])).map Int.ofNat) ↔
          (11 : Amount) % 8 = 0 ∨ (8 : Amount) % 4 = 0 ∧
            ((4 : Amount) = 1 ∨ (11 : Amount) % 8 ≤ 4 ∨ (2 : Amount) = 1 ∧ (11 : Amount) % 8 < 2 * 4) :=
  ⟨by decide, by decide, by decide, by decide, by decide, by decide, by decide,
    Simulation.touched_blockedNest {} (by decide) (by decide) (by decide) (by decide) (by decide)
      (by decide) (by decide) ["Exp"]⟩

/-- One row of thirteen columns, in blocks of eight and steps of two: five elements are left, and
    the two steps that the loop inside takes in the tail access all five of them. -/
theorem Simulation.not_touched_once_blockedNest :
    ∃ src dst b trace,
      Build.blockedNest 1 13 8 2 [] (.start {} .float32 3 2) = .ok (src, dst) b ∧
      (Pipeline.run b.kernel [.markers, .tails]).failure = none ∧
      Simulation.run (Pipeline.run b.kernel [.markers, .tails]).kernel = .ok trace ∧
      ∀ t ∈ [src, dst],
        ¬((trace.touched t.id).map Int64.toInt).Perm ((range (volume [1, 13])).map Int.ofNat) := by
  obtain ⟨src, dst, b, p, r, load, store, ys, around, blocks, inside, hrun, hnest, -⟩ :=
    Build.blockedNest_run {} .float32 1 13 8 2 []
  obtain ⟨trace, hfailure, hsim, hperm⟩ :=
    hnest.simulate (by decide) (by decide) (by decide) (by decide) (by decide) (by decide) rfl
  refine ⟨src, dst, b, trace, hrun, hfailure, hsim, fun t ht => ?_⟩
  rw [hperm t ht]
  decide

end KernelLoops
