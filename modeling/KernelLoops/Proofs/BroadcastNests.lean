import KernelLoops.Proofs.LoneLoops
import KernelLoops.Proofs.Placement
import KernelLoops.Proofs.TowerKernels

set_option autoImplicit false

/-! # Broadcast nests

The kernels that add to a tensor of any rank another one that has a single element in some of its
dimensions, with one loop per dimension. Such a kernel runs one piece between its parameters and its
result (`Kernel.IsSum.hasTower`), and each operand moves with the loops as its shape demands
(`follows_sum`). -/

namespace KernelLoops

open List

variable {k : Kernel} {e : Expr} {inner outer shape sizes small : List Amount} {t : Tensor}

/-! ## Shapes -/

/-- The second shape has the sizes of the first, or single elements. -/
def Broadcasts (shape small : List Amount) : Prop :=
  Forall₂ (fun size own => own = size ∨ own = 1) shape small

instance (shape small : List Amount) : Decidable (Broadcasts shape small) :=
  inferInstanceAs (Decidable (Forall₂ _ shape small))

theorem product_eq_volume (h : ∀ d ∈ sizes, 0 ≤ d) :
    Amount.product sizes = Int64.ofNat (volume sizes) := by
  have hprod : (sizes.map Int64.toInt).prod = (volume sizes : Int) := by
    induction sizes with
    | nil => rfl
    | cons size sizes ih =>
      have hsize : (size.trips : Int) = size.toInt :=
        Int.toNat_of_nonneg (Amount.le_iff.1 (h size mem_cons_self))
      rw [map_cons, prod_cons, ih fun d hd => h d (mem_cons_of_mem size hd), volume_cons, Nat.cast_mul,
        hsize]
  rw [Amount.product_eq_ofInt, hprod]
  rfl

theorem volume_pos (h : ∀ d ∈ sizes, 0 < d) : 0 < volume sizes := by
  induction sizes with
  | nil => exact Nat.one_pos
  | cons size sizes ih =>
    rw [volume_cons]
    exact Nat.mul_pos (Amount.trips_pos (h size mem_cons_self)) (ih fun d hd => h d (mem_cons_of_mem size hd))

/-- No dimension is larger than the whole. -/
theorem trips_le_volume (h : ∀ d ∈ sizes, 0 < d) {d : Amount} (hd : d ∈ sizes) :
    d.trips ≤ volume sizes := by
  induction sizes with
  | nil => cases hd
  | cons size sizes ih =>
    have hrest : ∀ d ∈ sizes, 0 < d := fun d hd => h d (mem_cons_of_mem size hd)
    rw [volume_cons]
    rcases mem_cons.1 hd with rfl | hd
    · exact Nat.le_mul_of_pos_right _ (volume_pos hrest)
    · exact Nat.le_trans (ih hrest hd) (Nat.le_mul_of_pos_left _ (Amount.trips_pos (h size mem_cons_self)))

namespace Broadcasts

variable (h : Broadcasts shape small)

include h

theorem length_eq : small.length = shape.length := (Forall₂.length_eq h).symm

theorem pos (hshape : ∀ d ∈ shape, 0 < d) : ∀ d ∈ small, 0 < d := by
  induction h with
  | nil => exact fun _ hd => (nomatch hd)
  | @cons size own _ _ hown _ ih =>
    refine forall_mem_cons.2 ⟨?_, ih fun d hd => hshape d (mem_cons_of_mem size hd)⟩
    rcases hown with rfl | rfl
    · exact hshape own mem_cons_self
    · decide

theorem volume_le (hshape : ∀ d ∈ shape, 0 < d) : volume small ≤ volume shape := by
  induction h with
  | nil => exact Nat.le_refl _
  | @cons size own shape small hown _ ih =>
    rw [volume_cons, volume_cons]
    refine Nat.mul_le_mul ?_ (ih fun d hd => hshape d (mem_cons_of_mem size hd))
    rcases hown with rfl | rfl
    · exact Nat.le_refl _
    · exact Amount.trips_pos (hshape size mem_cons_self)

/-- The dimension at the same level of the other shape. -/
theorem split {size : Amount} (hshape : shape = outer ++ size :: inner) :
    ∃ outer' own inner', small = outer' ++ own :: inner' ∧ outer'.length = outer.length ∧
      (own = size ∨ own = 1) ∧ Broadcasts inner inner' := by
  induction outer generalizing shape small with
  | nil =>
    subst hshape
    cases h with
    | cons hown hinner => exact ⟨[], _, _, rfl, rfl, hown, hinner⟩
  | cons d outer ih =>
    subst hshape
    cases h with
    | @cons _ own _ small _ hrest =>
      obtain ⟨outer', size', inner', rfl, hlength, hsize, hinner⟩ := ih hrest rfl
      exact ⟨own :: outer', size', inner', rfl, congrArg Nat.succ hlength, hsize, hinner⟩

end Broadcasts

/-! ## Building a sum -/

/-- Reads lanes of a tensor that has the innermost size of a shape, and one element for all lanes of
    any other. -/
def Build.loadFor (shape small : List Amount) (src : Tensor) : Build Tensor :=
  if shape.getLast? = small.getLast? then load src else broadcastLoad src

/-- Adds a tensor to all elements of an input, one that may have single elements in some dimensions.
    The answer is the two inputs and the output. -/
def Build.broadcastNest (shape small : List Amount) (inc : Amount) :
    Build (Tensor × Tensor × Tensor) := do
  let a ← parameter shape
  let b ← parameter small
  let m ← mark
  let v ← load a
  let w ← loadFor shape small b
  let sum ← elementwise "Add" [v, w]
  let dst ← store sum
  loopOver m inc 0 shape
  result dst
  return (a, b, dst)

/-- A tensor of numbers of single precision. -/
def Tensor.planar (id : TensorId) (shape : List Amount) : Tensor :=
  { TensorType.planar .float32 shape with id }

/-- The expressions of a sum, in whatever loops they lie. -/
structure Sums (shape small : List Amount) (inc : Amount) (p p' x y z w : Expr) : Prop where
  left : p.kind = .parameter ∧ p.inputs = [] ∧ p.outputs = [.planar 0 shape]
  right : p'.kind = .parameter ∧ p'.inputs = [] ∧ p'.outputs = [.planar 1 small]
  load : x.kind = .load ∧ x.count = inc ∧ x.inputs = [.planar 0 shape] ∧ x.outputs = [.planar 2 shape]
  spread : (y.kind = .load ∧ y.count = inc ∧ shape.getLast? = small.getLast? ∨
      y.kind = .broadcastLoad ∧ y.count = 1 ∧ shape.getLast? ≠ small.getLast?) ∧
    y.inputs = [.planar 1 small] ∧ y.outputs = [.planar 3 small]
  add : z.kind = .elementwise ∧ z.op = "Add" ∧ z.inputs = [.planar 2 shape, .planar 3 small] ∧
    z.outputs = [.planar 4 shape]
  store : w.kind = .store ∧ w.count = inc ∧ w.inputs = [.planar 4 shape] ∧ w.outputs = [.planar 5 shape]
  plain : ∀ e ∈ [x, y, z, w], e.fills = []

namespace Sums

variable {inc : Amount} {p p' x y z w : Expr} (h : Sums shape small inc p p' x y z w)

include h

theorem retag (ids : List LoopId) :
    Sums shape small inc p p' (x.retag ids) (y.retag ids) (z.retag ids) (w.retag ids) :=
  { h with plain := by simpa [Expr.retag] using h.plain }

theorem entriesOf (hk : k.Lists ([p, p'] ++ [x, y, z, w])) :
    k.entriesOf ([x, y, z, w].map Expr.id) = [x.inPort, y.inPort] := by
  have hread : ∀ e ∈ [x, y, z, w], k.expr e.id = e := fun e he => hk.read e (mem_append_right _ he)
  have hparam : ∀ e ∈ [p, p'], ∀ u ∈ e.outputs, u.id < 2 := by
    simp [h.left.2.2, h.right.2.2, Tensor.planar]
  have hmade : ∀ e ∈ [x, y, z, w], ∀ u ∈ e.outputs, 2 ≤ u.id := by
    simp [h.load.2.2.2, h.spread.2.2, h.add.2.2.2, h.store.2.2.2, Tensor.planar]
  have houter : ∀ t : Tensor, t.id < 2 → k.enters ([x, y, z, w].map Expr.id) t = true := fun t ht =>
    hk.enters_outside fun e he u hu => Nat.ne_of_gt (Nat.lt_of_lt_of_le ht (hmade e he u hu))
  have hinner : ∀ t : Tensor, 2 ≤ t.id → ∀ e ∈ [x, y, z, w], t ∈ e.outputs →
      k.enters ([x, y, z, w].map Expr.id) t = false := fun t ht e he hu =>
    hk.enters_inside (fun e he u hu => Nat.ne_of_lt (Nat.lt_of_lt_of_le (hparam e he u hu) ht)) he hu
  have h2 := hinner (.planar 2 shape) (Nat.le_refl 2) x (by simp) (by simp [h.load.2.2.2])
  have h3 := hinner (.planar 3 small) (Nat.le_succ 2) y (by simp) (by simp [h.spread.2.2])
  have h4 := hinner (.planar 4 shape) (by decide : (2 : Nat) ≤ 4) z (by simp) (by simp [h.add.2.2.2])
  have h0 := houter (.planar 0 shape) (by decide : (0 : Nat) < 2)
  have h1 := houter (.planar 1 small) (by decide : (1 : Nat) < 2)
  refine (Kernel.entriesOf_eq hread _).trans ?_
  generalize [x, y, z, w].map Expr.id = range at h0 h1 h2 h3 h4
  simp [h.load.2.2.1, h.spread.2.1, h.add.2.2.1, h.store.2.2.1, h0, h1, h2, h3, h4, Expr.inPort]

theorem exitsOf (hk : k.Lists ([p, p'] ++ [x, y, z, w])) :
    k.exitsOf ([x, y, z, w].map Expr.id) = [w.outPort] := by
  have hread : ∀ e ∈ [x, y, z, w], k.expr e.id = e := fun e he => hk.read e (mem_append_right _ he)
  have hparam : ∀ e ∈ [p, p'], e.inputs = [] := by simp [h.left.2.1, h.right.2.1]
  have hinner : ∀ t : Tensor, ∀ e ∈ [x, y, z, w], t ∈ e.inputs →
    ∀ e', k.exits ([x, y, z, w].map Expr.id) e' t = false :=
    fun t e he ht e' => hk.exits_inside (fun e he u hu => by rw [hparam e he] at hu; cases hu) he ht e'
  have h2 := hinner (.planar 2 shape) z (by simp) (by simp [h.add.2.2.1])
  have h3 := hinner (.planar 3 small) z (by simp) (by simp [h.add.2.2.1])
  have h4 := hinner (.planar 4 shape) w (by simp) (by simp [h.store.2.2.1])
  have h5 : k.exits ([x, y, z, w].map Expr.id) w.id (.planar 5 shape) = true := by
    refine hk.exits_unread (by simp) (by rw [h.store.1]; rfl) ?_ _
    simp [h.left.2.1, h.right.2.1, h.load.2.2.1, h.spread.2.1, h.add.2.2.1, h.store.2.2.1, Tensor.planar]
  rw [Kernel.exitsOf_eq hread]
  generalize [x, y, z, w].map Expr.id = range at h2 h3 h4 h5
  simp [h.load.2.2.2, h.spread.2.2, h.add.2.2.2, h.store.2.2.2, h2, h3, h4, h5, Expr.outPort]

/-- The tensors of a sum. -/
def tensors (shape small : List Amount) : List Tensor :=
  [.planar 0 shape, .planar 1 small, .planar 2 shape, .planar 3 small, .planar 4 shape, .planar 5 shape]

theorem mem_tensors (he : e ∈ [x, y, z, w]) (ht : t ∈ e.inputs ∨ t ∈ e.outputs) :
    t ∈ tensors shape small := by
  have hall : ∀ e ∈ [x, y, z, w], ∀ t ∈ e.inputs ++ e.outputs, t ∈ tensors shape small := by
    simp only [forall_mem_cons, h.load.2.2, h.spread.2, h.add.2.2, h.store.2.2, tensors]
    simp
  exact hall e he t (mem_append.2 ht)

omit h in
/-- A number names one tensor of a sum. -/
theorem type_unique {u : Tensor} (ht : t ∈ tensors shape small) (hu : u ∈ tensors shape small)
    (hid : u.id = t.id) :
    u.toTensorType = t.toTensorType := by
  simp only [tensors, mem_cons, not_mem_nil, or_false] at ht hu
  rcases ht with rfl | rfl | rfl | rfl | rfl | rfl <;> rcases hu with rfl | rfl | rfl | rfl | rfl | rfl <;>
    first | rfl | cases hid

omit h in
theorem float (ht : t ∈ tensors shape small) : t.elementType = .float32 := by
  simp only [tensors, mem_cons, not_mem_nil, or_false] at ht
  rcases ht with rfl | rfl | rfl | rfl | rfl | rfl <;> rfl

/-- What the expressions of a sum do, and how many elements each handles. -/
theorem kinds (he : e ∈ [x, y, z, w]) :
    (e.kind = .load ∨ e.kind = .store) ∧ e.count = inc ∨ e.kind = .broadcastLoad ∧ e.count = 1 ∨
      e.kind = .elementwise := by
  simp only [mem_cons, not_mem_nil, or_false] at he
  rcases he with rfl | rfl | rfl | rfl
  · exact .inl ⟨.inl h.load.1, h.load.2.1⟩
  · rcases h.spread.1 with hy | hy
    · exact .inl ⟨.inl hy.1, hy.2.1⟩
    · exact .inr (.inl ⟨hy.1, hy.2.1⟩)
  · exact .inr (.inr h.add.1)
  · exact .inl ⟨.inr h.store.1, h.store.2.1⟩

end Sums

/-- A kernel that adds two tensors between its interface, in one loop per dimension. -/
structure Kernel.IsSum (k : Kernel) (shape small : List Amount) (inc : Amount)
    (p p' x y z w r : Expr)
    (ids : List LoopId) : Prop where
  lists : k.Lists ([p, p'] ++ ([x, y, z, w] ++ [r]))
  sums : Sums shape small inc p p' x y z w
  result : r.kind = .result ∧ r.inputs = [.planar 5 shape] ∧ r.outputs = []
  outside : ∀ e ∈ [p, p', r], e.loopIds = replicate shape.length LoopId.null
  inside : ∀ e ∈ [x, y, z, w], e.loopIds = ids
  registered : Registered k.loops (Int64.ofNat shape.length) inc [x.inPort, y.inPort] [w.outPort] 0 shape ids
  loops : k.loops.Plain
  next : k.nextTensor = 6

/-- The wider of two operands comes first. -/
theorem Build.widest_pair {v w : Tensor} (h : w.numElements ≤ v.numElements) : widest v [w] = v :=
  if_neg (Int64.not_lt.2 h)

/-- Building a sum gives the kernel of the sum. -/
theorem Build.broadcastNest_run (config : Config) (inc : Amount) (hrank : shape.length ≤ 2 ^ 45)
    (hshape : ∀ d ∈ shape, 0 < d) (hvolume : volume shape < 2 ^ 62) (hsmall : Broadcasts shape small) :
    ∃ b p p' x y z w r ids,
      broadcastNest shape small inc (.start config .float32 (Int64.ofNat shape.length) inc) =
        .ok (.planar 0 shape, .planar 1 small, .planar 5 shape) b ∧
      b.kernel.IsSum shape small inc p p' x y z w r ids ∧ b.kernel.config = config := by
  let s := Builder.start config .float32 (Int64.ofNat shape.length) inc
  have hdepth : storage 8 s.depth = .ok shape.length := storage_rank hrank
  have hstart : Building s [] {} 0 s := Building.start config .float32 (Int64.ofNat shape.length) inc
  obtain ⟨p, b1, hleft, h1, hp⟩ := hstart.parameter hdepth shape
  obtain ⟨p', b2, hright, h2, hp'⟩ := h1.parameter hdepth small
  have hmark : Build.mark b2 = .ok (some p'.id) b2 := by
    show EStateM.Result.ok b2.kernel.last? b2 = _
    rw [Kernel.last?, h2.lists.order]
    rfl
  obtain ⟨x, b3, hload, h3, hx, hxcount⟩ := h2.load hdepth (.planar 0 shape) (by decide : (0 : Nat) < 2)
  have hspread : ∃ y b4, loadFor shape small (.planar 1 small) b3 = .ok (.planar 3 small) b4 ∧
      Building s ([p] ++ [p'] ++ [x] ++ [y]) {} 4 b4 ∧ y.inputs = [.planar 1 small] ∧ y.outputs = [.planar 3 small] ∧
      y.loopIds = replicate shape.length LoopId.null ∧ y.fills = [] ∧
      (y.kind = .load ∧ y.count = inc ∧ shape.getLast? = small.getLast? ∨
        y.kind = .broadcastLoad ∧ y.count = 1 ∧ shape.getLast? ≠ small.getLast?) := by
    unfold loadFor
    by_cases hlast : shape.getLast? = small.getLast?
    · obtain ⟨y, b4, hload, h4, hy, hcount⟩ := h3.load hdepth (.planar 1 small) (by decide : (1 : Nat) < 3)
      rw [if_pos hlast]
      exact ⟨y, b4, hload, h4, hy.inputs, hy.outputs, hy.loopIds, hy.fills, .inl ⟨hy.kind, hcount, hlast⟩⟩
    · obtain ⟨y, b4, hload, h4, hy, hcount⟩ := h3.broadcastLoad hdepth (.planar 1 small) (by decide : (1 : Nat) < 3)
      rw [if_neg hlast]
      exact ⟨y, b4, hload, h4, hy.inputs, hy.outputs, hy.loopIds, hy.fills, .inr ⟨hy.kind, hcount, hlast⟩⟩
  obtain ⟨y, b4, hspread, h4, hyin, hyout, hyids, hyfills, hy⟩ := hspread
  have hwidest : widest (.planar 2 shape) [.planar 3 small] = .planar 2 shape := by
    refine widest_pair ?_
    show Amount.product small ≤ Amount.product shape
    have hle := hsmall.volume_le hshape
    have hint : (Int64.ofNat (volume shape)).toInt = volume shape := Int64.toInt_ofNat_of_lt (by omega)
    have hint' : (Int64.ofNat (volume small)).toInt = volume small := Int64.toInt_ofNat_of_lt (by omega)
    rw [product_eq_volume fun d hd => Int64.le_of_lt (hsmall.pos hshape d hd),
      product_eq_volume fun d hd => Int64.le_of_lt (hshape d hd), Amount.le_iff, hint, hint']
    exact Int.ofNat_le.2 hle
  obtain ⟨z, b5, hadd, h5, hz, hop⟩ := h4.elementwise hdepth "Add" (.planar 2 shape) [.planar 3 small]
    (by simp [Tensor.planar])
  rw [hwidest] at hadd hz
  obtain ⟨w, b6, hstore, h6, hw, hwcount⟩ := h5.store hdepth (.planar 4 shape) (by decide : (4 : Nat) < 5)
  have hsums : Sums shape small inc p p' x y z w :=
    ⟨⟨hp.kind, hp.inputs, hp.outputs⟩, ⟨hp'.kind, hp'.inputs, hp'.outputs⟩, ⟨hx.kind, hxcount, hx.inputs, hx.outputs⟩,
      ⟨hy, hyin, hyout⟩, ⟨hz.kind, hop, hz.inputs, hz.outputs⟩, ⟨hw.kind, hwcount, hw.inputs, hw.outputs⟩,
      by simp [hx.fills, hyfills, hz.fills, hw.fills]⟩
  have hblank : [x, y, z, w].map (Expr.retag ([] ++ replicate shape.length LoopId.null)) = [x, y, z, w] := by
    have htags : ∀ e ∈ [x, y, z, w], e.loopIds = replicate shape.length LoopId.null := by
      simp [hx.loopIds, hyids, hz.loopIds, hw.loopIds]
    refine (map_congr_left fun e he => ?_).trans (map_id _)
    rw [nil_append, ← htags e he]
    rfl
  have hbuilt : Building s ([p] ++ p' :: [x, y, z, w].map (Expr.retag ([] ++ replicate shape.length LoopId.null))) {} 6
      b6 := by
    rw [hblank]
    exact h6
  obtain ⟨ids, loops, b7, hloops, h7, hplain, -, hreg, -, -⟩ := hbuilt.loopOver
    ⟨⟨by simp⟩, by simp⟩ (by simp only [length_nil]; omega) inc (cons_ne_nil _ _) [x.inPort, y.inPort] [w.outPort]
    (fun k ids hk => (hsums.retag ids).entriesOf hk) (fun k ids hk => (hsums.retag ids).exitsOf hk)
  obtain ⟨r, b8, hresult, h8, hr⟩ := h7.result hdepth (.planar 5 shape) (by decide : (5 : Nat) < 6)
  refine ⟨b8, p, p', x.retag ids, y.retag ids, z.retag ids, w.retag ids, r, ids, ?_, ?_, h8.config⟩
  · unfold broadcastNest
    refine (bind_run_ok hleft).trans ((bind_run_ok hright).trans ((bind_run_ok hmark).trans ?_))
    refine (bind_run_ok hload).trans ((bind_run_ok hspread).trans ((bind_run_ok hadd).trans ?_))
    refine (bind_run_ok hstore).trans ((bind_run_ok hloops).trans ?_)
    exact bind_run_ok hresult
  · exact {
      lists := h8.lists
      sums := hsums.retag ids
      result := ⟨hr.kind, hr.inputs, hr.outputs⟩
      outside := by simp [hp.loopIds, hp'.loopIds, hr.loopIds]
      inside := by simp [Expr.retag]
      registered := h8.loops ▸ hreg
      loops := h8.loops ▸ hplain
      next := h8.next }

/-! ## The tower of a sum -/

/-- How far the operands of a sum move in the dimension around some others. -/
def sumSteps (shape small inner : List Amount) : List Amount :=
  match shape.drop (shape.length - (inner.length + 1)), small.drop (shape.length - (inner.length + 1)) with
  | size :: _, own :: inner' =>
    [Int64.ofNat (volume inner), Markers.stepOf size own inner', Int64.ofNat (volume inner)]
  | _, _ => []

theorem sumSteps_eq {outer' inner' : List Amount} {size own : Amount}
    (hshape : shape = outer ++ size :: inner)
    (hsmall : small = outer' ++ own :: inner') (hlength : outer'.length = outer.length) :
    sumSteps shape small inner =
      [Int64.ofNat (volume inner), Markers.stepOf size own inner', Int64.ofNat (volume inner)] := by
  have hdrop : shape.length - (inner.length + 1) = outer.length := by
    rw [hshape, length_append, length_cons]
    omega
  rw [sumSteps, hdrop, hshape, drop_left, hsmall, ← hlength, drop_left]

/-- What the loops of a sum move. -/
def sumOperands (shape small : List Amount) : List Tensor :=
  [.planar 0 shape, .planar 1 small, .planar 5 shape]

/-- The operands of a sum move as their shapes demand. -/
theorem follows_sum {owns : List Amount} (h : Broadcasts sizes owns) (outer outer' : List Amount)
    (hshape : shape = outer ++ sizes) (hsmall : small = outer' ++ owns) (hlength : outer'.length = outer.length) :
    Follows 0 sizes sizes (ratesOver (sumOperands shape small) (sumSteps shape small) sizes) ∧
      Follows 1 sizes owns (ratesOver (sumOperands shape small) (sumSteps shape small) sizes) ∧
      Follows 5 sizes sizes (ratesOver (sumOperands shape small) (sumSteps shape small) sizes) := by
  induction h generalizing outer outer' with
  | nil => exact ⟨.nil, .nil, .nil⟩
  | @cons size own sizes owns hown hrest ih =>
    obtain ⟨hleft, hright, hdst⟩ := ih (outer ++ [size]) (outer' ++ [own])
      (by rw [hshape, append_cons]) (by rw [hsmall, append_cons])
      (by rw [length_append, length_append, hlength]; rfl)
    have hsteps := sumSteps_eq hshape hsmall hlength
    have hshift : ∀ T, shift T (sumOperands shape small) (sumSteps shape small sizes) =
        (if 0 = T then Int64.ofNat (volume sizes) else 0) + ((if 1 = T then Markers.stepOf size own owns else 0) +
          ((if 5 = T then Int64.ofNat (volume sizes) else 0) + 0)) := by
      intro T
      rw [hsteps]
      rfl
    refine ⟨.stride ?_ hleft, ?_, .stride ?_ hdst⟩
    · show shift 0 _ _ = _
      rw [hshift]
      simp
    · have hrate : shift 1 (sumOperands shape small) (sumSteps shape small sizes) = Markers.stepOf size own owns := by
        rw [hshift]
        simp
      by_cases hstill : own = 1 ∧ size ≠ 1
      · obtain ⟨rfl, hne⟩ := hstill
        exact .still (hrate.trans (if_pos ⟨rfl, hne⟩)) hright
      · have hsame : own = size := hown.elim id fun hone => by
          rw [hone]
          exact (not_not.1 fun hne => hstill ⟨hone, hne⟩).symm
        rw [Markers.stepOf, if_neg hstill] at hrate
        subst hsame
        exact .stride hrate hright
    · show shift 5 _ _ = _
      rw [hshift]
      simp

/-- The piece of a sum. -/
def sumPiece (shape : List Amount) (inc : Amount) (x y z w : Expr) (ids : List LoopId) : Piece where
  body := [x, y, z, w]
  tags := ids
  sizes := shape
  inc := inc
  entries := [x.inPort, y.inPort]
  exits := [w.outPort]

namespace Kernel.IsSum

variable {inc : Amount} {p p' x y z w r : Expr} {ids : List LoopId}
  (h : k.IsSum shape small inc p p' x y z w r ids)

include h

theorem read (he : e ∈ [x, y, z, w]) : k.expr e.id = e :=
  h.lists.read e (mem_append_right _ (mem_append_left _ he))

theorem tensorAt : k.tensorAt x.inPort = .ok (.planar 0 shape) ∧
    k.tensorAt y.inPort = .ok (.planar 1 small) ∧
    k.tensorAt w.outPort = .ok (.planar 5 shape) := by
  refine ⟨?_, ?_, ?_⟩
  · rw [Kernel.tensorAt, show k.expr x.inPort.expr = x from h.read (by simp), Expr.inPort, Expr.operand, Expr.input,
      h.sums.load.2.2.1]
    rfl
  · rw [Kernel.tensorAt, show k.expr y.inPort.expr = y from h.read (by simp), Expr.inPort, Expr.operand, Expr.input,
      h.sums.spread.2.1]
    rfl
  · rw [Kernel.tensorAt, show k.expr w.outPort.expr = w from h.read (by simp), Expr.outPort, Expr.operand, Expr.output,
      h.sums.store.2.2.2]
    rfl

theorem registered_piece : (sumPiece shape inc x y z w ids).Registered k.loops shape ids :=
  Registered.piece (p := sumPiece shape inc x y z w ids) h.registered (by rw [Nat.zero_add])

theorem inFakeLoop (he : e ∈ [x, y, z, w]) : Markers.inFakeLoop (k.expr e.id) = false := by
  rw [h.read he, Markers.inFakeLoop, h.inside e he]
  refine decide_eq_false fun hlast => ?_
  have hreal := h.registered_piece.real _ (mem_of_getLast? hlast)
  cases hreal

/-- Both loads step a pointer, for different parameters feed them. -/
theorem steppedEntries : Markers.steppedEntries k [x.inPort, y.inPort] = .ok [x.inPort, y.inPort] := by
  obtain ⟨hx, hy, -⟩ := h.tensorAt
  -- a parameter is the only one to make its tensor
  have hfeeder : ∀ {q : Port} {t : Tensor} {e : Expr}, k.tensorAt q = .ok t →
      (∀ e' ∈ [p, p', x, y, z, w, r], ∀ u ∈ e'.outputs, t.id = u.id → e' = e) →
      ∀ i, Markers.feeder k q = some i → i = e.id := by
    intro q t e hq honly i hi
    rw [Markers.feeder_eq hq] at hi
    obtain ⟨port, hport, rfl⟩ := Option.map_eq_some_iff.1 hi
    obtain ⟨e', he', hexpr, -, u, hu, hid⟩ := h.lists.mem_producers.1 (mem_of_mem_head? hport)
    rw [hexpr, honly e' he' u (mem_of_getElem? hu) hid]
  have hleft := hfeeder hx (e := p) (by
    simp [h.sums.left.2.2, h.sums.right.2.2, h.sums.load.2.2.2, h.sums.spread.2.2, h.sums.add.2.2.2, h.sums.store.2.2.2,
      h.result.2.2, Tensor.planar])
  have hright := hfeeder hy (e := p') (by
    simp [h.sums.left.2.2, h.sums.right.2.2, h.sums.load.2.2.2, h.sums.spread.2.2, h.sums.add.2.2.2, h.sums.store.2.2.2,
      h.result.2.2, Tensor.planar])
  have hne : p.id ≠ p'.id := fun heq => (nodup_cons.1 h.lists.nodup).1 (by simp [heq])
  refine Markers.steppedEntries_eq ?_ ?_ ?_
  · intro q hq
    rcases mem_pair.1 hq with rfl | rfl
    · rw [show k.expr x.inPort.expr = x from h.read (by simp)]
      exact .inl h.sums.load.1
    · rw [show k.expr y.inPort.expr = y from h.read (by simp)]
      exact h.sums.spread.1.imp And.left And.left
  · intro q hq
    rcases mem_pair.1 hq with rfl | rfl
    · exact ⟨_, hx⟩
    · exact ⟨_, hy⟩
  · refine pairwise_pair.2 fun i hi hi' => hne ?_
    rw [← hleft i hi, ← hright i hi']

variable (hrank : shape.length ≤ 2 ^ 45) (hshape : ∀ d ∈ shape, 0 < d)
  (hsmall : Broadcasts shape small)

include hrank hshape hsmall

/-- Each loop of a sum moves the two inputs and the output. -/
theorem moves : (sumPiece shape inc x y z w ids).Moves k (sumOperands shape small)
    (sumSteps shape small) := by
  intro outer size inner hsizes id around
  change shape = outer ++ size :: inner at hsizes
  obtain ⟨outer', own, inner', hsmall', hlength, hown, hinner⟩ := hsmall.split hsizes
  obtain ⟨hx, hy, hw⟩ := h.tensorAt
  have hnonneg : ∀ d ∈ inner, 0 ≤ d := fun d hd =>
    Int64.le_of_lt (hshape d (by rw [hsizes]; simp [hd]))
  have hnonneg' : ∀ d ∈ inner', 0 ≤ d := fun d hd =>
    Int64.le_of_lt (hsmall.pos hshape d (by rw [hsmall']; simp [hd]))
  have hfull : ∀ {q : Port} {i : TensorId} {e : Expr}, k.tensorAt q = .ok (.planar i shape) → e ∈ [x, y, z, w] →
      q.expr = e.id → Markers.Faces k q (.planar i shape) outer size inner := fun hq he hexpr =>
    ⟨hq, hexpr ▸ h.inFakeLoop he, by rw [← hsizes]; rfl, by rw [← hsizes]; exact hrank,
      hnonneg⟩
  have hfaced : Markers.Faced k inner.length ([x.inPort, y.inPort] ++ [w.outPort]) (sumOperands shape small)
      [(size, inner), (own, inner'), (size, inner)] := by
    have hown : Markers.Faces k y.inPort (.planar 1 small) outer' own inner' := by
      refine ⟨hy, h.inFakeLoop (e := y) (by simp), ?_, ?_, hnonneg'⟩
      · rw [← hsmall']
        rfl
      · rw [← hsmall', hsmall.length_eq]
        exact hrank
    exact .cons (hfull hx (e := x) (by simp) rfl) rfl (.cons hown (Forall₂.length_eq hinner).symm
      (.cons (hfull hw (e := w) (by simp) rfl) rfl .nil))
  have hle : own ≤ size := by
    rcases hown with rfl | rfl
    · exact Int64.le_refl own
    · have hpos := Amount.lt_iff.1 (hshape size (by rw [hsizes]; simp))
      exact Amount.le_iff.2 hpos
  have hexits : Markers.steppedExits k [w.outPort] = [w.outPort] := by
    rw [Markers.steppedExits, filter_singleton, show k.expr w.outPort.expr = w from h.read (by simp), h.sums.store.1]
    rfl
  have hbytes : ∀ t ∈ sumOperands shape small, t.elementType.size = .ok 4 := by
    simp [sumOperands, Tensor.planar, TensorType.planar, ElementType.size, ElementType.size?]
  have hparams := hfaced.loopParams
    ((sumPiece shape inc x y z w ids).loop size inner) size h.steppedEntries hexits rfl hbytes
    (by simp [hle]) (by simp) id around
  refine ⟨_, hparams, ?_⟩
  rw [sumSteps_eq hsizes hsmall' hlength]
  have hstep : Markers.stepOf size size inner = Int64.ofNat (volume inner) := if_neg fun hstill => hstill.2 hstill.1
  simp [hstep]

omit hrank hshape hsmall in
theorem sits : (sumPiece shape inc x y z w ids).Sits k where
  nonempty := cons_ne_nil _ _
  tagged := h.inside
  kinds e he := by rcases h.sums.kinds he with ⟨hk | hk, -⟩ | ⟨hk, -⟩ | hk <;> rw [hk] <;> rfl
  source := by simp [sumPiece, h.sums.load.2.2.1, h.sums.spread.2.1, h.sums.add.1, h.sums.store.1]
  target := by
    have hy : y.outputs ≠ [] := by rw [h.sums.spread.2.2]; exact cons_ne_nil _ _
    simp [sumPiece, h.sums.load.1, hy, h.sums.add.1, h.sums.store.2.2.2]
  adjacent := LoopId.contiguous_replicate_append h.registered_piece.real 0
  registered := by
    have hids : LoopId.loops ids = ids := LoopId.loops_replicate_append h.registered_piece.real 0
    exact hids.symm ▸ h.registered_piece
  visited _ := ⟨x, mem_cons_self, by rw [Markers.visited, h.sums.load.1]; rfl⟩
  boundary := by simp [sumPiece, Expr.inPort, Expr.outPort]

/-- The piece of a sum can run in its loops. -/
theorem sound (hne : shape ≠ []) (hvolume : volume shape < 2 ^ 62) (hinc : 0 < inc)
    (hknown : inc.isDynamic = false) :
    (sumPiece shape inc x y z w ids).Sound k (sumOperands shape small) (sumSteps shape small)
      ((Piece.outside [r] shape.length).body.flatMap Expr.inputIds) where
  sits := h.sits
  kinds e he := by rcases h.sums.kinds he with ⟨hk | hk, -⟩ | ⟨hk, -⟩ | hk <;> simp [hk]
  plain := h.sums.plain
  single e he hkind := by
    rcases h.sums.kinds he with ⟨hk | hk, -⟩ | ⟨hk, hcount⟩ | hk
    · cases hk.symm.trans hkind
    · cases hk.symm.trans hkind
    · exact hcount
    · cases hk.symm.trans hkind
  accesses := ⟨x, mem_cons_self, .inl h.sums.load.1⟩
  float e he t ht := Sums.float (h.sums.mem_tensors he (mem_append.1 ht))
  levels := hne
  sizes d hd := by
    refine ⟨hshape d hd, ?_⟩
    have hle := trips_le_volume hshape hd
    rw [Amount.trips] at hle
    rw [Amount.isDynamic, beq_eq_false_iff_ne]
    rintro rfl
    have hbig : Amount.dynamic.toInt.toNat = 0x7fffffffffffffff := by decide
    omega
  step := ⟨hinc, hknown⟩
  ports := cons_ne_nil _ _
  few := by show (3 : Nat) ≤ 2 ^ 45; omega
  moves := h.moves hrank hshape hsmall
  kept t ht := by
    simp only [sumOperands, mem_cons, not_mem_nil, or_false] at ht
    have hmade : ∀ e ∈ [x, y, z, w], ∀ u ∈ e.outputs, 2 ≤ u.id := by
      simp [h.sums.load.2.2.2, h.sums.spread.2.2, h.sums.add.2.2.2, h.sums.store.2.2.2, Tensor.planar]
    rcases ht with rfl | rfl | rfl
    · exact .inr fun e he u hu => Nat.ne_of_gt (Nat.lt_of_lt_of_le Nat.two_pos (hmade e he u hu))
    · exact .inr fun e he u hu => Nat.ne_of_gt (Nat.lt_of_lt_of_le Nat.one_lt_two (hmade e he u hu))
    · left
      simp [Piece.outside, Expr.inputIds, h.result.2.1]
  types e he t ht e' he' u hu hid := Sums.type_unique (h.sums.mem_tensors he ht) (h.sums.mem_tensors he' (.inr hu)) hid
  counted e he hkind := by
    have htrips : inc.toInt = inc.trips := (Int.toNat_of_nonneg (Amount.le_iff.1 (Int64.le_of_lt hinc))).symm
    rcases h.sums.kinds he with ⟨-, hcount⟩ | ⟨hk, -⟩ | hk
    · rw [hcount, htrips]
      rfl
    · rw [hk] at hkind
      simp at hkind
    · rw [hk] at hkind
      simp at hkind
  broad hone e he := by
    have hbig : 1 < inc := by
      refine Amount.lt_iff.2 (lt_of_le_of_ne (Amount.lt_iff.1 hinc) fun heq => hone ?_)
      exact (Int64.toInt_inj.1 heq).symm
    rcases h.sums.kinds he with ⟨hk, hcount⟩ | ⟨hk, -⟩ | hk
    · exact fun _ => hcount ▸ hbig
    · simp [hk]
    · simp [hk]

omit hrank hshape hsmall in
theorem pieces : k.Pieces [.outside [p, p'] shape.length, sumPiece shape inc x y z w ids,
    .outside [r] shape.length] where
  lists := h.lists
  sits := by
    refine forall_mem_cons.2 ⟨?_, forall_mem_cons.2 ⟨h.sits, forall_mem_singleton.2 ?_⟩⟩
    · refine Piece.sits_outside (cons_ne_nil _ _) ?_ fun e he => h.outside e ?_
      · simp [h.sums.left.1, h.sums.right.1]
      · exact mem_append_left [r] he
    · refine Piece.sits_outside (cons_ne_nil _ _) ?_ fun e he => h.outside e ?_
      · simp [h.result.1]
      · exact mem_append_right [p, p'] he
  apart := by
    have hids : ∀ id ∈ LoopId.loops ids, id ∉ replicate shape.length LoopId.null := by
      intro id hid hnull
      have hreal := (LoopId.mem_loops.1 hid).2
      rw [eq_of_mem_replicate hnull] at hreal
      cases hreal
    refine pairwise_cons.2 ⟨fun q _ id hid => ?_, pairwise_pair.2 hids⟩
    rw [Piece.loops_outside] at hid
    cases hid
  loops := h.loops

/-- A sum runs one piece between its parameters and its result. -/
theorem hasTower (hne : shape ≠ []) (hvolume : volume shape < 2 ^ 62) (hinc : 0 < inc)
    (hknown : inc.isDynamic = false) :
    k.HasTower (.outside [p, p'] shape.length) (sumPiece shape inc x y z w ids) (.outside [r] shape.length)
      (sumOperands shape small) (sumSteps shape small) where
  pieces := h.pieces
  sound := h.sound hrank hshape hsmall hne hvolume hinc hknown
  parameters := by simp [Piece.outside, h.sums.left.1, h.sums.right.1]
  results := by simp [Piece.outside, h.result.1]
  outside := ⟨rfl, rfl⟩

omit hrank hshape hsmall in
/-- There is nothing to fuse in a sum. -/
theorem fusion_idle : Fusion.run k = .ok false k := by
  obtain ⟨hx, hy, hw⟩ := h.tensorAt
  have hunfed : (sumPiece shape inc x y z w ids).Unfed k := by
    have hmade : ∀ e ∈ [p, p'] ++ ([x, y, z, w] ++ [r]), e.kind = .parameter ∨ ∀ u ∈ e.outputs, 2 ≤ u.id := by
      simp [h.sums.left.1, h.sums.right.1, h.sums.load.2.2.2, h.sums.spread.2.2, h.sums.add.2.2.2, h.sums.store.2.2.2,
        h.result.2.2, Tensor.planar]
    have hparam : ∀ t : Tensor, t.id < 2 → ∀ e, k.producer? t.id = some e → e.kind = .parameter := by
      intro t ht e he
      obtain ⟨hmem, u, hu, hid⟩ := h.lists.of_producer? he
      exact (hmade e hmem).resolve_right fun hlate => absurd (hid ▸ hlate u hu) (Nat.not_le.2 ht)
    intro q hq
    rcases mem_pair.1 hq with rfl | rfl
    · exact ⟨_, hx, fun e he => .inr (.inl (hparam _ (by decide : (0 : Nat) < 2) e he))⟩
    · exact ⟨_, hy, fun e he => .inr (.inl (hparam _ (by decide : (1 : Nat) < 2) e he))⟩
  have hfeedless : (sumPiece shape inc x y z w ids).Feedless k := by
    have hread : ∀ e ∈ [p, p'] ++ ([x, y, z, w] ++ [r]), e.kind = .result ∨ ∀ u ∈ e.inputs, 5 ≠ u.id := by
      simp [h.sums.left.2.1, h.sums.right.2.1, h.sums.load.2.2.1, h.sums.spread.2.1, h.sums.add.2.2.1,
        h.sums.store.2.2.1, h.result.1, Tensor.planar]
    intro q hq
    rw [mem_singleton.1 hq]
    refine ⟨_, hw, fun c hc => .inl ?_⟩
    obtain ⟨hmem, u, hu, hid⟩ := h.lists.of_consumer hc
    exact (hread _ hmem).resolve_right fun hnot => hnot u hu hid
  have hdepth : ∀ q ∈ [.outside [p, p'] shape.length, sumPiece shape inc x y z w ids, .outside [r] shape.length],
      q.tags.length = shape.length := by
    simp [Piece.outside, sumPiece, h.registered_piece.length_eq]
  refine h.pieces.fusion_idle ?_ ?_ ?_ hdepth
  · refine forall_mem_cons.2 ⟨fun _ hq => (nomatch hq), forall_mem_cons.2 ⟨hunfed, ?_⟩⟩
    exact forall_mem_singleton.2 fun _ hq => (nomatch hq)
  · refine forall_mem_cons.2 ⟨fun _ hq => (nomatch hq), forall_mem_cons.2 ⟨hfeedless, ?_⟩⟩
    exact forall_mem_singleton.2 fun _ hq => (nomatch hq)
  · simp [Piece.outside, sumPiece]

end Kernel.IsSum

end KernelLoops
