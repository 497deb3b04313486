import KernelLoops.Proofs.SweepingNests

set_option autoImplicit false

/-! # Steps of planar operands

How far the operands of a loop move per unit of work, read off their shapes: a planar tensor moves
by the elements of the dimensions inside the iterated one, unless it has a single element there and
another operand has more. -/

namespace KernelLoops

open List

variable {k : Kernel} {size : Amount} {sizes : List Amount} {entries : List Port}

/-! ## Strides -/

/-- The stride of a dimension is the volume of the dimensions that the layout places inside it. -/
theorem TensorType.stride_eq {dim : Int} (outer : List Int) {inner : List Int} {shape : List Amount}
    (hdim : dim ∉ inner)
    (hsizes : Forall₂ (fun d n => fetch shape d = .ok n ∧ 0 ≤ n) inner sizes) :
    stride dim (outer ++ dim :: inner) shape = .ok (Int64.ofNat (volume sizes)) := by
  -- the walk from the innermost dimension stops at the given one
  have hinner : (outer ++ dim :: inner).reverse.takeWhile (· != dim) = inner.reverse := by
    rw [reverse_append, reverse_cons, append_assoc, takeWhile_append_of_pos]
    · simp
    · intro d hd
      rw [bne_iff_ne]
      rintro rfl
      exact hdim (mem_reverse.1 hd)
  rw [stride, hinner]
  clear hinner hdim
  induction hsizes with
  | nil => rfl
  | @cons d n inner sizes hd _ ih =>
    rw [reverse_cons, foldlM_append, ih, volume_cons, Nat.mul_comm,
      Int64.ofNat_mul, Amount.ofNat_trips hd.2, except_bind_ok rfl, foldlM_cons, hd.1]
    rfl

/-- The stride of a dimension of a planar shape is the volume of the dimensions inside it. -/
theorem stride_planar (outer : List Amount) (size : Amount) (hsizes : ∀ d ∈ sizes, 0 ≤ d) :
    TensorType.stride outer.length ((range (outer ++ size :: sizes).length).map Int.ofNat) (outer ++ size :: sizes) =
      .ok (Int64.ofNat (volume sizes)) := by
  have hlayout : (range (outer ++ size :: sizes).length).map Int.ofNat =
      (range outer.length).map Int.ofNat ++
        (outer.length : Int) :: (range' (outer.length + 1) sizes.length).map Int.ofNat := by
    rw [length_append, length_cons, range_eq_range', range_eq_range', ← range'_append_1, map_append, Nat.zero_add,
      range'_succ]
    rfl
  rw [hlayout]
  refine TensorType.stride_eq _ (by simp) ?_
  rw [forall₂_map_left_iff, forall₂_iff_get]
  refine ⟨by simp, fun i hi hi' => ⟨fetch_eq_ok_iff.2 ?_, hsizes _ (get_mem sizes ⟨i, hi'⟩)⟩⟩
  simp only [get_eq_getElem, getElem_range', Nat.one_mul]
  rw [getElem?_append_right (by omega), show outer.length + 1 + i - outer.length = i + 1 by omega]
  exact getElem?_eq_getElem hi'

namespace Markers

/-- A loop with `inner` dimensions inside sees a planar tensor at a port, `size` being the iterated
    dimension. -/
structure Faces (k : Kernel) (q : Port) (t : Tensor) (outer : List Amount) (size : Amount)
    (inner : List Amount) :
    Prop where
  tensor : k.tensorAt q = .ok t
  real : inFakeLoop (k.expr q.expr) = false
  type : t.toTensorType = .planar t.elementType (outer ++ size :: inner)
  rank : (outer ++ size :: inner).length ≤ 2 ^ 45
  sizes : ∀ d ∈ inner, 0 ≤ d

/-- How far an operand moves in a dimension, the largest size there being `widest`. -/
def stepOf (widest size : Amount) (inner : List Amount) : Amount :=
  if size = 1 ∧ widest ≠ 1 then 0 else Int64.ofNat (volume inner)

namespace Faces

variable {q : Port} {t : Tensor} {outer : List Amount} {inner : List Amount}
  (h : Faces k q t outer size inner)

include h

theorem shape : t.shape = outer ++ size :: inner := congrArg TensorType.shape h.type

theorem layout : t.layout = (range (outer ++ size :: inner).length).map Int.ofNat :=
  congrArg TensorType.layout h.type

theorem iteratedDim : Markers.iteratedDim k q (Int64.ofNat inner.length) = .ok (outer.length : Int) := by
  have hlength : (outer ++ size :: inner).length = outer.length + (inner.length + 1) := by
    rw [length_append, length_cons]
  have hrank := h.rank
  rw [hlength] at hrank
  have hindex : Int64.ofNat (outer.length + (inner.length + 1)) - 1 - Int64.ofNat inner.length + 0 =
      Int64.ofNat outer.length := by
    rw [Int64.ofNat_add, Int64.ofNat_add]
    grind
  have hint : (Int64.ofNat outer.length).toInt = outer.length := Int64.toInt_ofNat_of_lt (by omega)
  have hint' : (Int64.ofNat (outer.length + (inner.length + 1))).toInt = (outer.length + (inner.length + 1) : Nat) :=
    Int64.toInt_ofNat_of_lt (by omega)
  rw [Markers.iteratedDim, h.tensor, except_bind_ok rfl, h.real, h.layout, length_map, length_range, hlength]
  simp only [Bool.false_eq_true, if_false, hindex]
  rw [if_neg]
  · rw [hint]
    exact fetch_eq_ok_iff.2 (by simp)
  · rw [Bool.or_eq_true, decide_eq_true_eq, decide_eq_true_eq, Amount.lt_iff, ge_iff_le, Amount.le_iff, hint, hint']
    rintro (h | h)
    · exact absurd h (Int.not_lt.2 (Int.natCast_nonneg _))
    · omega

theorem fetch_shape : fetch t.shape (outer.length : Int) = .ok size := by
  rw [h.shape]
  exact fetch_eq_ok_iff.2 (by rw [getElem?_append_right (Nat.le_refl _), Nat.sub_self]; rfl)

theorem iteratedSize : Markers.iteratedSize k (Int64.ofNat inner.length) q = .ok size := by
  rw [Markers.iteratedSize, h.iteratedDim, except_bind_ok rfl, h.tensor, except_bind_ok rfl, h.fetch_shape]

theorem ptrIncrement (widest : Amount) (layout : List Int) :
    Markers.ptrIncrement k (Int64.ofNat inner.length) widest layout q = .ok (stepOf widest size inner) := by
  have hstride := stride_planar outer size h.sizes
  rw [Markers.ptrIncrement, h.tensor, except_bind_ok rfl, h.iteratedDim, except_bind_ok rfl, h.fetch_shape,
    except_bind_ok rfl, h.real, h.layout, h.shape, stepOf]
  by_cases hstill : size = 1 ∧ widest ≠ 1
  · rw [if_pos (by simp [hstill.1, hstill.2]), if_pos hstill]
    rfl
  · rw [if_neg (by simpa using hstill), if_neg hstill]
    exact hstride

end Faces

/-- A loop with `n` dimensions inside sees planar tensors at ports, with the iterated dimension of
    each and those inside. -/
inductive Faced (k : Kernel) (n : Nat) : List Port → List Tensor → List (Amount × List Amount) → Prop
  | nil : Faced k n [] [] []
  | cons {q : Port} {qs : List Port} {t : Tensor} {ts : List Tensor} {outer : List Amount} {size : Amount}
      {inner : List Amount} {dims : List (Amount × List Amount)} (faces : Faces k q t outer size inner)
      (length : inner.length = n) (rest : Faced k n qs ts dims) : Faced k n (q :: qs) (t :: ts) ((size, inner) :: dims)

namespace Faced

variable {n : Nat} {qs : List Port} {ts : List Tensor} {dims : List (Amount × List Amount)}
  (h : Faced k n qs ts dims)

include h

theorem tensorAt : qs.mapM k.tensorAt = .ok ts := by
  induction h with
  | nil => rfl
  | cons faces length _ ih =>
    rw [mapM_cons, faces.tensor, except_bind_ok rfl, ih]
    rfl

theorem iteratedSize : qs.mapM (Markers.iteratedSize k (Int64.ofNat n)) = .ok (dims.map Prod.fst) := by
  induction h with
  | nil => rfl
  | cons faces length _ ih =>
    have hsize := faces.iteratedSize
    rw [length] at hsize
    rw [mapM_cons, hsize, except_bind_ok rfl, ih]
    rfl

theorem ptrIncrement (widest : Amount) (layout : List Int) :
    qs.mapM (Markers.ptrIncrement k (Int64.ofNat n) widest layout) = .ok (dims.map fun d => stepOf widest d.1 d.2) := by
  induction h with
  | nil => rfl
  | cons faces length _ ih =>
    have hstep := faces.ptrIncrement widest layout
    rw [length] at hstep
    rw [mapM_cons, hstep, except_bind_ok rfl, ih]
    rfl

omit h in
/-- The largest of some sizes. -/
theorem foldl_max {xs : List Amount} (x : Amount) (hle : ∀ y ∈ x :: xs, y ≤ size)
    (hmem : size ∈ x :: xs) :
    xs.foldl max x = size := by
  induction xs generalizing x with
  | nil => exact (mem_singleton.1 hmem).symm
  | cons y xs ih =>
    obtain ⟨hx, hy, hmax⟩ := Amount.max_spec x y
    refine ih (max x y) ?_ ?_
    · intro z hz
      rcases mem_cons.1 hz with rfl | hz
      · rcases hmax with hmax | hmax <;> rw [hmax]
        · exact hle x mem_cons_self
        · exact hle y (mem_cons_of_mem x mem_cons_self)
      · exact hle z (mem_cons_of_mem x (mem_cons_of_mem y hz))
    · have hbound : max x y ≤ size := by
        rcases hmax with hmax | hmax <;> rw [hmax]
        · exact hle x mem_cons_self
        · exact hle y (mem_cons_of_mem x mem_cons_self)
      rcases mem_cons.1 hmem with rfl | hmem
      · rw [Int64.le_antisymm hbound hx]
        exact mem_cons_self
      · rcases mem_cons.1 hmem with rfl | hmem
        · rw [Int64.le_antisymm hbound hy]
          exact mem_cons_self
        · exact mem_cons_of_mem _ hmem

/-- The operands of a loop move as their shapes demand. -/
theorem ptrIncrements (hle : ∀ d ∈ dims, d.1 ≤ size) (hmem : size ∈ dims.map Prod.fst) :
    Markers.ptrIncrements k (Int64.ofNat n) qs = .ok (dims.map fun d => stepOf size d.1 d.2) := by
  have hsteps := h.ptrIncrement size
  have hsizes := h.iteratedSize
  have htensor := h.tensorAt
  cases h with
  | nil => cases hmem
  | @cons q qs t ts outer own inner dims faces length rest =>
    have hown := faces.iteratedSize
    rw [length] at hown
    have hwidest : (dims.map Prod.fst).foldl max own = size := by
      refine foldl_max own ?_ hmem
      intro y hy
      obtain ⟨d, hd, rfl⟩ := mem_map.1 (show y ∈ ((own, inner) :: dims).map Prod.fst from hy)
      exact hle d hd
    rw [Markers.ptrIncrements, faces.tensor, except_bind_ok rfl, hown, except_bind_ok rfl, rest.iteratedSize,
      except_bind_ok rfl, hwidest]
    exact hsteps t.layout

end Faced

/-! ## Entries that are all kept -/

/-- Who makes what an entry reads. -/
def feeder (k : Kernel) (q : Port) : Option ExprId :=
  match k.tensorAt q with
  | .ok t => (k.producers t.id).head?.map Port.expr
  | .error _ => none

theorem feeder_eq {q : Port} {t : Tensor} (h : k.tensorAt q = .ok t) :
    feeder k q = (k.producers t.id).head?.map Port.expr := by
  rw [feeder, h]

/-- Loads that read what different expressions make all step a pointer. -/
theorem steppedEntries_eq
    (hload : ∀ q ∈ entries, (k.expr q.expr).kind = .load ∨ (k.expr q.expr).kind = .broadcastLoad)
    (htensor : ∀ q ∈ entries, ∃ t, k.tensorAt q = .ok t)
    (hapart : entries.Pairwise fun q q' => ∀ e, feeder k q = some e → feeder k q' ≠ some e) :
    steppedEntries k entries = .ok entries := by
  -- the loads kept so far read what the expressions seen make
  have hfold : ∀ seen kept, (∀ q ∈ entries, ∀ e, feeder k q = some e → e ∉ seen) →
      ∃ seen', entries.foldlM (keepEntry k) (seen, kept) = .ok (seen', kept ++ entries) := by
    induction entries with
    | nil => exact fun seen kept _ => ⟨seen, by rw [append_nil]; rfl⟩
    | cons q qs ih =>
      intro seen kept hseen
      obtain ⟨hq, hapart⟩ := pairwise_cons.1 hapart
      obtain ⟨t, ht⟩ := htensor q mem_cons_self
      have hrest := ih (fun q' hq' => hload q' (mem_cons_of_mem q hq'))
        (fun q' hq' => htensor q' (mem_cons_of_mem q hq')) hapart
      have hkind : (decide ((k.expr q.expr).kind ≠ .load) && decide
          ((k.expr q.expr).kind ≠ .broadcastLoad)) = false := by
        rcases hload q mem_cons_self with h | h <;> rw [h] <;> rfl
      have hfeeder := feeder_eq ht
      rw [foldlM_cons]
      rcases hhead : (k.producers t.id).head? with - | p
      · obtain ⟨seen', hfold⟩ := hrest seen (kept ++ [q]) fun q' hq' => hseen q' (mem_cons_of_mem q hq')
        have hkeep : keepEntry k (seen, kept) q = .ok (seen, kept ++ [q]) := by
          unfold keepEntry
          simp only [hkind, Bool.false_eq_true, if_false]
          rw [ht, except_bind_ok rfl, hhead]
          rfl
        refine ⟨seen', ?_⟩
        rw [hkeep, except_bind_ok rfl, hfold, ← append_cons]
      · rw [hhead] at hfeeder
        have hnew : seen.contains p.expr = false := by
          simpa using hseen q mem_cons_self p.expr hfeeder
        have hkeep : keepEntry k (seen, kept) q = .ok (p.expr :: seen, kept ++ [q]) := by
          unfold keepEntry
          simp only [hkind, Bool.false_eq_true, if_false]
          rw [ht, except_bind_ok rfl, hhead]
          simp only [hnew, Bool.false_eq_true, if_false]
          rfl
        obtain ⟨seen', hfold⟩ := hrest (p.expr :: seen) (kept ++ [q]) fun q' hq' e he hmem => by
          rcases mem_cons.1 hmem with rfl | hmem
          · exact hq q' hq' p.expr hfeeder he
          · exact hseen q' (mem_cons_of_mem q hq') e he hmem
        refine ⟨seen', ?_⟩
        rw [hkeep, except_bind_ok rfl, hfold, ← append_cons]
  obtain ⟨seen', hfold⟩ := hfold [] [] fun _ _ _ _ => not_mem_nil
  rw [steppedEntries, hfold]
  rfl

/-! ## Parameters of a loop -/

/-- The parameters of a loop whose operands are planar tensors. -/
theorem Faced.loopParams {n : Nat} {exits : List Port} {ts : List Tensor}
    {dims : List (Amount × List Amount)}
    (h : Faced k n (entries ++ exits) ts dims) (info : LoopInfo) (size : Amount)
    (hentries : steppedEntries k info.entries = .ok entries) (hexits : steppedExits k info.exits = exits)
    (hdim : info.dim = Int64.ofNat n) {bytes : Amount} (hbytes : ∀ t ∈ ts, t.elementType.size = .ok bytes)
    (hle : ∀ d ∈ dims, d.1 ≤ size) (hmem : size ∈ dims.map Prod.fst) (id : LoopId) (around : Bool) :
    Markers.loopParams k id info around =
      .ok ({ id
             workAmount := info.workAmount
             increment := info.increment
             ptrIncrements := dims.map fun d => stepOf size d.1 d.2
             finalOffsets := finalOffsets info.workAmount (dims.map fun d => stepOf size d.1 d.2)
             elementSizes := ts.map fun _ => bytes
             numEntries := Int64.ofNat entries.length
             numExits := Int64.ofNat exits.length
             hasOuterLoop := around }, ts) := by
  have hsizes : ts.mapM (fun t : Tensor => t.elementType.size) = .ok (ts.map fun _ => bytes) := by
    clear h
    induction ts with
    | nil => rfl
    | cons t ts ih =>
      rw [mapM_cons, hbytes t mem_cons_self, except_bind_ok rfl,
        ih fun u hu => hbytes u (mem_cons_of_mem t hu)]
      rfl
  unfold Markers.loopParams
  rw [hentries, except_bind_ok rfl, hexits, hdim]
  simp only []
  rw [h.ptrIncrements hle hmem, except_bind_ok rfl, h.tensorAt,
    except_bind_ok rfl, hsizes]
  rfl

end Markers

end KernelLoops
