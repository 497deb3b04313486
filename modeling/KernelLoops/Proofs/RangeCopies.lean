import Mathlib.Data.List.Find
import KernelLoops.Proofs.TailFrames

set_option autoImplicit false

/-! # Copies of a range

A range of the sequence is copied, the copies get loops of their own, and they are inserted before
some mark. What has been inserted is the range again under one substitution: of the numbers of its
expressions, of the tensors that nothing else takes, and of the listed loops. Everything else is
shared, and everything that was there is what it was. -/

namespace KernelLoops

open List

variable {b e : Expr} {operands : Expr → List Tensor} {start stop : Option ExprId} {side : Side}
  {u : Tensor}

namespace Kernel

variable {k : Kernel} {range : List ExprId}

/-- Operands are told apart by their names: each name has been handed out, and it stands for one
    tensor. -/
structure Identified (k : Kernel) : Prop where
  known : ∀ e ∈ k.order, ∀ t ∈ (k.expr e).inputs ++ (k.expr e).outputs, t.id < k.nextTensor
  same : ∀ e ∈ k.order, ∀ f ∈ k.order, ∀ t ∈ (k.expr e).inputs ++ (k.expr e).outputs,
    ∀ u ∈ (k.expr f).inputs ++ (k.expr f).outputs, t.id = u.id → t = u

/-- The range makes the tensor, and nothing outside the range takes it. -/
structure Internal (k : Kernel) (range : List ExprId) (t : Tensor) : Prop where
  made : ∃ e ∈ range, t ∈ (k.expr e).outputs
  taken : ∀ e ∈ k.order, t ∈ (k.expr e).inputs → e ∈ range

/-- A kernel with an exact index lists its sequence. -/
theorem Exact.lists (h : k.Exact) (hk : k.Identified) : k.Lists k.sequence := by
  have hread : ∀ x ∈ k.sequence, k.expr x.id = x ∧ x.id ∈ k.order := by
    intro x hx
    obtain ⟨e, he, rfl⟩ := mem_map.1 hx
    rw [h.numbered e (h.made e he)]
    exact ⟨rfl, he⟩
  have horder : k.order = k.sequence.map Expr.id := by
    rw [sequence, map_map]
    exact ((map_congr_left fun e he => h.numbered e (h.made e he)).trans (map_id _)).symm
  have hlinks : ∀ (side : Side) (operands : Expr → List Tensor) (l : Link),
      (∃ e ∈ k.order, l ∈ Edit.links e side (operands (k.expr e))) ↔
        ∃ x ∈ k.sequence, l ∈ Edit.links x.id side (operands x) := by
    intro side operands l
    constructor
    · rintro ⟨e, he, hl⟩
      refine ⟨k.expr e, mem_map_of_mem he, ?_⟩
      rwa [h.numbered e (h.made e he)]
    · rintro ⟨x, hx, hl⟩
      refine ⟨x.id, (hread x hx).2, ?_⟩
      rwa [(hread x hx).1]
  exact {
    order := horder
    read := fun x hx => (hread x hx).1
    made := fun x hx => h.made x.id (hread x hx).2
    nodup := horder ▸ h.nodup
    consumed := fun l => (h.consumed.mem l).trans (hlinks .input Expr.inputs l)
    produced := fun l => (h.produced.mem l).trans (hlinks .output Expr.outputs l)
    known := fun x hx t ht => hk.known x.id (hread x hx).2 t (by rw [(hread x hx).1]; exact mem_append.2 ht) }

/-- A range is a part of the sequence. -/
theorem exists_order_split (h : k.range? start stop = some range) (hmem : ∀ e ∈ range, e ∈ k.order) :
    ∃ pre post, k.order = pre ++ range ++ post ∧ (range = [] ∨ start = range.head? ∧ post.head? = stop) := by
  cases range with
  | nil => exact ⟨k.order, [], by simp, .inl rfl⟩
  | cons first range =>
    obtain ⟨rest, hwalk, hstop⟩ := Tails.of_range? h
    cases start with
    | none => cases hwalk
    | some e =>
      obtain ⟨rfl, hbehind⟩ := List.cons.inj hwalk
      obtain ⟨pre, post, hsplit, hnew⟩ := eq_append_cons_of_mem (hmem e mem_cons_self)
      rw [hsplit, behind_append hnew] at hbehind
      exact ⟨pre, rest, by rw [hsplit, hbehind]; simp, .inr ⟨rfl, hstop⟩⟩

end Kernel

/-! ## A part of the list that stands there once more -/

/-- The part `xs` of the list of `k` stands once more in the list of `k'`, as its image between
    `front` and `back`. -/
structure Recurs (k k' : Kernel) (pre xs post front back : List Expr)
    (table : List (TensorId × Tensor))
    (copy : Expr → Expr) : Prop where
  copied : Copied pre xs post k.nextTensor k'.nextTensor table copy
  before : k.Lists (pre ++ xs ++ post)
  split : pre ++ xs ++ post = front ++ back
  after : k'.Lists (front ++ (xs.map copy ++ back))
  consumed : k'.consumed = k.consumed ++ (xs.map copy).flatMap fun y => Edit.links y.id .input y.inputs
  produced : k'.produced = k.produced ++ (xs.map copy).flatMap fun y => Edit.links y.id .output y.outputs

/-- The first port that carries a tensor belongs to the first expression that has it as an
    operand. -/
theorem find?_ports (side : Side) (operands : Expr → List Tensor) (among : ExprId → Bool)
    (n : TensorId) (ys : List Expr) :
    ((((ys.flatMap fun y => Edit.links y.id side (operands y)).filter (·.tensor = n)).map Link.port).find?
        fun p => among p.expr).map Port.expr =
      (ys.find? fun y => among y.id && (operands y).any (·.id = n)).map Expr.id := by
  induction ys with
  | nil => rfl
  | cons y ys ih =>
    let ports := ((Edit.links y.id side (operands y)).filter (·.tensor = n)).map Link.port
    have hports : ∀ p ∈ ports, p.expr = y.id := by
      intro p hp
      obtain ⟨l, hl, rfl⟩ := mem_map.1 hp
      exact (Edit.mem_links.1 (mem_filter.1 hl).1).1
    rw [flatMap_cons, filter_append, map_append, find?_append, find?_cons]
    change ((ports.find? _).or _).map _ = _
    by_cases hfound : (among y.id && (operands y).any (·.id = n)) = true
    · rw [hfound]
      obtain ⟨hamong, hany⟩ := Bool.and_eq_true_iff.1 hfound
      obtain ⟨t, ht, hid⟩ := any_eq_true.1 hany
      obtain ⟨i, hi⟩ := mem_iff_getElem?.1 ht
      have hmem : (⟨y.id, side, i⟩ : Port) ∈ ports := by
        refine mem_map.2 ⟨⟨n, y.id, side, i⟩, mem_filter.2 ⟨?_, by simp⟩, rfl⟩
        exact Edit.mem_links.2 ⟨rfl, rfl, t, hi, (of_decide_eq_true hid).symm⟩
      cases hfind : ports.find? fun p => among p.expr with
      | none => exact absurd hamong (find?_eq_none.1 hfind _ hmem)
      | some p => simp [hports p (mem_of_find?_eq_some hfind)]
    · have hnone : ports.find? (fun p => among p.expr) = none := by
        refine find?_eq_none.2 fun p hp hamong => hfound ?_
        obtain ⟨l, hl, rfl⟩ := mem_map.1 hp
        obtain ⟨hl, hn⟩ := mem_filter.1 hl
        obtain ⟨hy, -, t, ht, hid⟩ := Edit.mem_links.1 hl
        refine Bool.and_eq_true_iff.2 ⟨hy ▸ hamong, any_eq_true.2 ⟨t, mem_of_getElem? ht, ?_⟩⟩
        exact decide_eq_true (hid.symm.trans (of_decide_eq_true hn))
      rw [hnone, Option.none_or, Bool.eq_false_of_not_eq_true hfound, ih]

namespace Recurs

variable {k k' : Kernel} {pre xs post front back : List Expr} {table : List (TensorId × Tensor)}
  {copy : Expr → Expr}
  {t : Tensor} {x : Expr} (h : Recurs k k' pre xs post front back table copy)

include h

section

variable (ht : (table.lookup t.id).isSome)

include ht

/-- An operand of an image has a fresh name exactly if it is the image of the tensor that got that
    name. -/
theorem operand_iff (hx : x ∈ xs) (hu : u ∈ x.inputs ∨ u ∈ x.outputs) :
    (RangeCopy.rename table u).id = (RangeCopy.rename table t).id ↔ u.id = t.id := by
  constructor
  · exact fun hid => h.copied.eq_of_rename_id (h.copied.known x (by simp [hx]) u hu) ht hid
  · intro hid
    obtain ⟨v, hv⟩ := Option.isSome_iff_exists.1 ht
    rw [RangeCopy.rename, RangeCopy.rename, hid, hv]
    rfl

/-- What was in the list has no operand with a fresh name. -/
theorem not_fresh (hx : x ∈ pre ++ xs ++ post) (hu : u ∈ x.inputs ∨ u ∈ x.outputs) :
    u.id ≠ (RangeCopy.rename table t).id := by
  obtain ⟨v, hv⟩ := Option.isSome_iff_exists.1 ht
  have hfresh := (h.copied.fresh.fresh t.id v hv).1
  have hknown := h.copied.known x hx u hu
  rw [RangeCopy.rename, hv, Option.getD_some]
  exact Nat.ne_of_lt (Nat.lt_of_lt_of_le hknown hfresh)

/-- The ports that carry the fresh tensor are those that carried the old one, moved to the
    images. -/
theorem mem_ports_iff (hops : ∀ x, ∀ u ∈ operands x, u ∈ x.inputs ∨ u ∈ x.outputs)
    (himage : ∀ x ∈ xs, operands (copy x) = (operands x).map (RangeCopy.rename table)) {move : Port → Port}
    (hmove : ∀ x ∈ xs, ∀ side index, move ⟨x.id, side, index⟩ = ⟨(copy x).id, side, index⟩) {ports ports' : List Port}
    (hports : ∀ {q : Port}, q ∈ ports ↔ ∃ x ∈ pre ++ xs ++ post,
      q.expr = x.id ∧ q.side = side ∧ ∃ u, (operands x)[q.index]? = some u ∧ t.id = u.id)
    (hports' : ∀ {p : Port}, p ∈ ports' ↔ ∃ y ∈ front ++ (xs.map copy ++ back),
      p.expr = y.id ∧ p.side = side ∧ ∃ u, (operands y)[p.index]? = some u ∧ (RangeCopy.rename table t).id = u.id)
    (p : Port) : p ∈ ports' ↔ ∃ q ∈ ports, q.expr ∈ xs.map Expr.id ∧ move q = p := by
  rw [hports']
  constructor
  · rintro ⟨y, hy, hexpr, hside, u, hu, hid⟩
    have hcase : y ∈ pre ++ xs ++ post ∨ ∃ x ∈ xs, copy x = y := by
      rw [h.split]
      simp only [mem_append, mem_map] at hy ⊢
      tauto
    rcases hcase with hy | ⟨x, hx, rfl⟩
    · exact absurd hid.symm (h.not_fresh ht hy (hops y u (mem_of_getElem? hu)))
    · rw [himage x hx, getElem?_map] at hu
      obtain ⟨v, hv, rfl⟩ := Option.map_eq_some_iff.1 hu
      have hold := (h.operand_iff ht hx (hops x v (mem_of_getElem? hv))).1 hid.symm
      refine ⟨⟨x.id, side, p.index⟩, hports.2 ⟨x, by simp [hx], rfl, rfl, v, hv, hold.symm⟩, mem_map_of_mem hx, ?_⟩
      rw [hmove x hx, ← hexpr, ← hside]
  · rintro ⟨q, hq, hmem, rfl⟩
    obtain ⟨x, hx, hexpr⟩ := mem_map.1 hmem
    obtain ⟨x', hx', hexpr', hside, u, hu, hid⟩ := hports.1 hq
    obtain rfl : x' = x := h.before.eq_of_id hx' (by simp [hx]) (hexpr'.symm.trans hexpr.symm)
    have hmoved : move q = ⟨(copy x').id, q.side, q.index⟩ := by rw [← hmove x' hx, ← hexpr']
    rw [hmoved]
    refine ⟨copy x', by simp [mem_map_of_mem hx], rfl, hside, RangeCopy.rename table u, ?_, ?_⟩
    · rw [himage x' hx, getElem?_map, hu, Option.map_some]
    · exact ((h.operand_iff ht hx (hops x' u (mem_of_getElem? hu))).2 hid.symm).symm

/-- Among the ports that carry the fresh tensor, the first one belongs to the image of the first
    expression of the part that has the old tensor as an operand. -/
theorem find?_links (hops : ∀ x, ∀ u ∈ operands x, u ∈ x.inputs ∨ u ∈ x.outputs)
    (himage : ∀ x ∈ xs, operands (copy x) = (operands x).map (RangeCopy.rename table)) {old : List Link}
    (hold : ∀ l ∈ old, ∃ x ∈ pre ++ xs ++ post, l ∈ Edit.links x.id side (operands x)) (among : ExprId → Bool)
    {first : Expr} (hfirst : xs.find? (fun x => among (copy x).id && (operands x).any (·.id = t.id)) = some first) :
    ∃ p, ((((old ++ (xs.map copy).flatMap fun y => Edit.links y.id side (operands y)).filter
        (·.tensor = (RangeCopy.rename table t).id)).map Link.port).find? fun p => among p.expr) = some p ∧
      p.expr = (copy first).id := by
  have hnone : old.filter (·.tensor = (RangeCopy.rename table t).id) = [] := by
    refine filter_eq_nil_iff.2 fun l hl htensor => ?_
    obtain ⟨x, hx, hlink⟩ := hold l hl
    obtain ⟨-, -, u, hu, hid⟩ := Edit.mem_links.1 hlink
    exact h.not_fresh ht hx (hops x u (mem_of_getElem? hu)) (hid.symm.trans (of_decide_eq_true htensor))
  have hany : ∀ x ∈ xs, (operands (copy x)).any (·.id = (RangeCopy.rename table t).id) =
      (operands x).any (·.id = t.id) := by
    intro x hx
    rw [himage x hx, any_map, Bool.eq_iff_iff]
    simp only [any_eq_true, Function.comp_apply, decide_eq_true_eq]
    exact exists_congr fun u => and_congr_right fun hu => h.operand_iff ht hx (hops x u hu)
  have hfound : (xs.map copy).find? (fun y => among y.id && (operands y).any (·.id = (RangeCopy.rename table t).id)) =
      some (copy first) := by
    rw [find?_map, ← Option.map_some, ← hfirst]
    exact congrArg (Option.map copy) (find?_congr fun x hx => congrArg (among (copy x).id && ·) (hany x hx))
  have hports := find?_ports side operands among (RangeCopy.rename table t).id (xs.map copy)
  rw [hfound, Option.map_some] at hports
  rw [filter_append, hnone, nil_append]
  exact Option.map_eq_some_iff.1 hports

end

theorem read_copy (hx : x ∈ xs) : k'.expr (copy x).id = copy x :=
  h.after.read _ (by simp [mem_map_of_mem hx])

/-- The image of a closing marker finds the image of the first expression of the part that makes its
    tie. -/
theorem loopBeginOf (hb : b ∈ xs) (he : e ∈ xs) (hopens : b.kind = .loopBegin)
    (hcloses : e.kind = .loopEnd)
    (htie : e.inputs.getLast? = some t) (ht : (table.lookup t.id).isSome)
    (hfirst : xs.find? (fun x => x.outputs.any (·.id = t.id)) = some b) :
    k'.loopBeginOf (copy e).id = .ok (copy b).id := by
  obtain ⟨p, hfind, hp⟩ := h.find?_links ht (fun _ _ => .inr) (fun _ => h.copied.outputs) (fun l => (h.before.produced l).1)
    (fun _ => true) (by simpa using hfirst)
  rw [← h.produced] at hfind
  obtain ⟨rest, hports⟩ : ∃ rest, k'.producers (RangeCopy.rename table t).id = p :: rest := by
    rw [Kernel.producers]
    generalize (k'.produced.filter _).map Link.port = ports at hfind
    cases ports with
    | nil => cases hfind
    | cons q rest =>
      cases hfind
      exact ⟨rest, rfl⟩
  rw [← hp]
  refine Kernel.loopBeginOf_eq ?_ ?_ hports ?_
  · rw [h.read_copy he, h.copied.kind he, hcloses]
  · rw [h.read_copy he, h.copied.inputs he, getLast?_map, htie, Option.map_some]
  · rw [hp, h.read_copy hb, h.copied.kind hb, hopens]

/-- The image of an opening marker finds the image of the first closing marker of the part that
    takes its tie. -/
theorem loopEndOf (hb : b ∈ xs) (hopens : b.kind = .loopBegin) (htie : b.outputs.head? = some t)
    (ht : (table.lookup t.id).isSome)
    (hfirst : xs.find? (fun x => x.kind = .loopEnd && x.inputs.any (·.id = t.id)) = some e) :
    k'.loopEndOf (copy b).id = .ok (copy e).id := by
  have hfirst' : xs.find? (fun x => (k'.expr (copy x).id).kind = .loopEnd && x.inputs.any (·.id = t.id)) = some e := by
    rw [← hfirst]
    refine find?_congr fun x hx => ?_
    rw [h.read_copy hx, h.copied.kind hx]
  obtain ⟨p, hfind, hp⟩ := h.find?_links ht (fun _ _ => .inl) (fun _ => h.copied.inputs) (fun l => (h.before.consumed l).1)
    (fun i => (k'.expr i).kind = .loopEnd) hfirst'
  rw [← h.consumed] at hfind
  have houtput : (copy b).output 0 = .ok (RangeCopy.rename table t) := by
    rw [Expr.output, h.copied.outputs hb]
    obtain ⟨rest, hrest⟩ := head?_eq_some_iff.1 htie
    rw [hrest]
    rfl
  have hkind : (copy b).kind = .loopBegin := (h.copied.kind hb).trans hopens
  unfold Kernel.loopEndOf
  rw [h.read_copy hb]
  simp only [hkind, houtput, bind, Except.bind]
  rw [Kernel.consumers, hfind, ← hp]
  rfl

end Recurs

namespace Kernel.Lists

variable {k : Kernel} {pre xs post front back : List Expr}

/-- Copying a part of the list, with loops of its own, to another place. -/
theorem exists_recurs (h : k.Lists (pre ++ xs ++ post)) (htable : k.loops.Numbered)
    (hrange : k.range? start stop = some (xs.map Expr.id)) {ids : List LoopId}
    (hids : ∀ id ∈ ids, (k.loops.get? id).isSome) (hsplit : pre ++ xs ++ post = front ++ back) :
    ∃ (c : RangeCopy) (k1 k2 k' : Kernel) (mapping : List (LoopId × LoopId)) (number : ExprId → ExprId),
      c.pairs = xs.map (fun x => (x.id, number x.id)) ∧ Edit.copyRange start stop k = .ok c k1 ∧
      Edit.copyLoops c ids k1 = .ok mapping k2 ∧ Edit.insertCopy c (back.head?.map Expr.id) k2 = .ok ⟨⟩ k' ∧
      Recurs k k' pre xs post front back c.tensors (Edit.imageOf c.tensors number mapping) ∧
      Edit.Relooped c.movePort k.loops k'.loops mapping ∧ (∀ id, (mapping.lookup id).isSome ↔ id ∈ ids) ∧
      (∀ i < k.exprs.size, k'.expr i = k.expr i) ∧
      (∀ x ∈ xs, k.exprs.size ≤ number x.id ∧ number x.id < k2.exprs.size) ∧
      (xs.map fun x => number x.id).Nodup ∧
      ∀ i u, c.tensors.lookup i = some u → ∃ x ∈ xs, ∃ t ∈ x.outputs, t.id = i ∧ u.toTensorType = t.toTensorType := by
  have hout : ReadIn ((pre ++ post).flatMap Expr.inputIds) (pre ++ post) := fun i => mem_flatMap
  obtain ⟨names, hnames⟩ : ∃ names, names = freshNames ((xs.flatMap Expr.outputs).filter fun t =>
    !((pre ++ post).flatMap Expr.inputIds).contains t.id) [] k.nextTensor := ⟨_, rfl⟩
  obtain ⟨number, exprs, hnum, hcopy⟩ := h.copyRange hrange hout hnames
  have htypes : ∀ i u, names.1.lookup i = some u →
      ∃ x ∈ xs, ∃ t ∈ x.outputs, t.id = i ∧ u.toTensorType = t.toTensorType := by
    intro i u hu
    rw [hnames] at hu
    rcases type_freshNames _ hu with hnone | ⟨t, ht, hid, htype⟩
    · cases hnone
    · obtain ⟨x, hx, hxt⟩ := mem_flatMap.1 (mem_filter.1 ht).1
      exact ⟨x, hx, t, hxt, hid, htype⟩
  let made : Kernel := { k with nextTensor := names.2, exprs }
  let c : RangeCopy := { pairs := xs.map fun y => (y.id, number y.id), tensors := names.1 }
  obtain ⟨mapping, loops, hloops, hkeys, hreloop⟩ := Edit.copyLoops_run (k := made) c htable hids
  obtain ⟨exprs', htag, hsize, hold, hread⟩ := hnum.retagged loops mapping
  have hcopies : c.copies = xs.map fun x => number x.id := map_map
  rw [hcopies] at hreloop
  have hcopied := h.copied hout hnames fun x _ => Edit.core_imageOf names.1 number mapping x
  obtain ⟨order, hins, hafter⟩ := (hsplit ▸ h).insertCopies hcopied (hsize ▸ hnum.size) hold hread
    (fun x hx => hsize ▸ hnum.fresh x hx) (by rw [map_map]; exact hnum.nodup)
  refine ⟨c, made, _, _, mapping, number, rfl, hcopy, hreloop.trans (congrArg _ htag), ?_,
    ⟨hcopied, h, hsplit, hafter, rfl, rfl⟩, hloops, hkeys, hold,
      fun x hx => hsize ▸ hnum.fresh x hx, hnum.nodup, htypes⟩
  rw [Edit.insertCopy, hcopies]
  rw [map_map] at hins
  exact hins

end Kernel.Lists

/-! ## Copies are clones -/

namespace Kernel

variable {k k' : Kernel} {range : List ExprId}

/-- The range alone ties the two markers: what `e` takes last is internal to it and `b` is the first
    there to make it, and what `b` makes first is internal to it and `e` is the first closing marker
    there to take it. -/
structure TiedWithin (k : Kernel) (range : List ExprId) (b e : ExprId) : Prop where
  opening : ∀ t, (k.expr e).inputs.getLast? = some t → k.Internal range t ∧
    range.find? (fun i => (k.expr i).outputs.any (·.id = t.id)) = some b
  closing : ∀ t, (k.expr b).outputs.head? = some t → k.Internal range t ∧
    range.find? (fun i => (k.expr i).kind = .loopEnd && (k.expr i).inputs.any (·.id = t.id)) = some e

/-- The kernel `k'` is `k` with a copy of a range in it. Nothing that was there has changed. The
    copies have numbers of their own and are the expressions of the range under one substitution,
    which gives a tensor that is internal to the range a fresh name of its own and a listed loop a
    fresh entry in the table. Markers that the range alone ties are tied in the copy. -/
structure Cloned (k k' : Kernel) (range : List ExprId) (ids : List LoopId) (mark : Option ExprId)
    (c : RangeCopy)
    (mapping : List (LoopId × LoopId)) : Prop where
  exact : k'.Exact
  order : k'.order = putBefore mark c.copies k.order
  unchanged : ∀ e < k.exprs.size, k'.expr e = k.expr e
  registered : ∀ id info, k.loops.get? id = some info → k'.loops.get? id = some info
  sources : c.pairs.map Prod.fst = range
  fresh : ∀ e ∈ c.copies, k.exprs.size ≤ e
  apart : c.copies.Nodup
  payload : ∀ p ∈ c.pairs, k'.expr p.2 = { k.expr p.1 with
    id := p.2
    inputs := (k.expr p.1).inputs.map (RangeCopy.rename c.tensors)
    outputs := (k.expr p.1).outputs.map (RangeCopy.rename c.tensors)
    loopIds := (k.expr p.1).loopIds.map (Edit.renamed mapping)
    hasLevels := !(k.expr p.1).loopIds.isEmpty
    loop := (k.expr p.1).loop.map fun l => { l with id := Edit.renamed mapping l.id } }
  renamed : ∀ t, k.Internal range t → (RangeCopy.rename c.tensors t).toTensorType = t.toTensorType ∧
    k.nextTensor ≤ (RangeCopy.rename c.tensors t).id
  injective : ∀ t u, k.Internal range t → k.Internal range u →
    (RangeCopy.rename c.tensors t).id = (RangeCopy.rename c.tensors u).id → t = u
  producers : ∀ t, k.Internal range t → ∀ p, p ∈ k'.producers (RangeCopy.rename c.tensors t).id ↔
    ∃ q ∈ k.producers t.id, q.expr ∈ range ∧ c.movePort q = p
  consumers : ∀ t, k.Internal range t → ∀ p, p ∈ k'.consumers (RangeCopy.rename c.tensors t).id ↔
    ∃ q ∈ k.consumers t.id, q.expr ∈ range ∧ c.movePort q = p
  shared : ∀ e ∈ range, ∀ t ∈ (k.expr e).inputs ++ (k.expr e).outputs, ¬k.Internal range t →
    RangeCopy.rename c.tensors t = t
  listed : ∀ id, (mapping.lookup id).isSome ↔ id ∈ ids
  distinct : ∀ i ∈ ids, ∀ j ∈ ids, Edit.renamed mapping i = Edit.renamed mapping j → i = j
  infos : ∀ id ∈ ids, k.loops.get? (Edit.renamed mapping id) = none ∧ ∃ info, k.loops.get? id = some info ∧
    k'.loops.get? (Edit.renamed mapping id) = some { info with
      entries := info.entries.map c.movePort
      exits := info.exits.map c.movePort }
  tied : ∀ b ∈ range, ∀ e ∈ range, k.loopBeginOf e = .ok b → k.loopEndOf b = .ok e → k.TiedWithin range b e →
    ∃ b' e', (b, b') ∈ c.pairs ∧ (e, e') ∈ c.pairs ∧ k'.loopBeginOf e' = .ok b' ∧ k'.loopEndOf b' = .ok e'

/-- The tensors with a fresh name are the internal ones. -/
theorem Internal.isSome_iff {pre xs post : List Expr} {n : TensorId}
    {table : List (TensorId × Tensor)} {copy : Expr → Expr}
    (hcopied : Copied pre xs post k.nextTensor n table copy) (h : k.Lists (pre ++ xs ++ post)) (hk : k.Identified)
    {t : Tensor} {y : Expr} (hy : y ∈ pre ++ xs ++ post) (ht : t ∈ y.inputs ++ y.outputs) :
    (table.lookup t.id).isSome ↔ k.Internal (xs.map Expr.id) t := by
  have hsame : ∀ x ∈ pre ++ xs ++ post, ∀ u ∈ x.inputs ++ x.outputs, u.id = t.id → u = t := by
    intro x hx u hu hid
    refine hk.same x.id (h.mem_order.2 ⟨x, hx, rfl⟩) y.id (h.mem_order.2 ⟨y, hy, rfl⟩) u ?_ t ?_ hid
    · rwa [h.read x hx]
    · rwa [h.read y hy]
  rw [hcopied.own]
  constructor
  · rintro ⟨⟨x, hx, hmade⟩, hfree⟩
    have hxs : x ∈ pre ++ xs ++ post := by simp [hx]
    obtain ⟨u, hu, hid⟩ := mem_map.1 hmade
    obtain rfl := hsame x hxs u (mem_append_right _ hu) hid
    refine ⟨⟨x.id, mem_map_of_mem hx, by rwa [h.read x hxs]⟩, fun e he htaken => ?_⟩
    obtain ⟨z, hz, rfl⟩ := h.mem_order.1 he
    rw [h.read z hz] at htaken
    have hcase : z ∈ xs ∨ z ∈ pre ++ post := by
      simp only [mem_append] at hz ⊢
      tauto
    rcases hcase with hz | hz
    · exact mem_map_of_mem hz
    · exact absurd (mem_map_of_mem htaken) (hfree z hz)
  · rintro ⟨⟨e, he, hmade⟩, htaken⟩
    obtain ⟨x, hx, rfl⟩ := mem_map.1 he
    rw [h.read x (by simp [hx])] at hmade
    refine ⟨⟨x, hx, mem_map_of_mem hmade⟩, fun z hz hzt => ?_⟩
    have hzs : z ∈ pre ++ xs ++ post := by
      simp only [mem_append] at hz ⊢
      tauto
    obtain ⟨u, hu, hid⟩ := mem_map.1 hzt
    obtain rfl := hsame z hzs u (mem_append_left _ hu) hid
    have hrange := htaken z.id (h.mem_order.2 ⟨z, hzs, rfl⟩) (by rwa [h.read z hzs])
    obtain ⟨x', hx', hid'⟩ := mem_map.1 hrange
    obtain rfl := h.eq_of_id (by simp [hx']) hzs hid'
    exact hcopied.apart x' hx' hz

/-- An opening marker that finds its closing one makes something. -/
theorem exists_tie_of_loopEndOf {b e : ExprId} (h : k.loopEndOf b = .ok e) :
    ∃ t, (k.expr b).outputs.head? = some t := by
  cases hout : (k.expr b).outputs with
  | nil =>
    have houtput : (k.expr b).output 0 = .error (.trap .index) := by rw [Expr.output, hout]; rfl
    unfold loopEndOf at h
    simp only [houtput] at h
    split at h <;> cases h
  | cons t rest => exact ⟨t, rfl⟩

end Kernel

/-- Copying a range, giving the copies loops of their own and inserting them before a mark always
    succeeds, and leaves a clone of the range. -/
theorem Edit.copy_clones {k : Kernel} (h : k.Exact) (hk : k.Identified) (htable : k.loops.Numbered)
    {start stop : Option ExprId} {range : List ExprId} (hrange : k.range? start stop = some range)
    (hmem : ∀ e ∈ range, e ∈ k.order) {ids : List LoopId} (hids : ∀ id ∈ ids, (k.loops.get? id).isSome)
    {mark : Option ExprId} (hmark : ∀ m ∈ mark, m ∈ k.order) :
    ∃ c k₁ mapping k₂ k', Edit.copyRange start stop k = .ok c k₁ ∧ Edit.copyLoops c ids k₁ = .ok mapping k₂ ∧
      Edit.insertCopy c mark k₂ = .ok ⟨⟩ k' ∧ k.Cloned k' range ids mark c mapping := by
  obtain ⟨a, z, horder, -⟩ := Kernel.exists_order_split hrange hmem
  obtain ⟨xs, hxs⟩ : ∃ xs, xs = range.map k.expr := ⟨_, rfl⟩
  have hnumbers : range = xs.map Expr.id := by
    rw [hxs, map_map]
    exact ((map_congr_left fun e he => h.numbered e (h.made e (hmem e he))).trans (map_id _)).symm
  have hlists : k.Lists (a.map k.expr ++ xs ++ z.map k.expr) := by
    rw [hxs, ← map_append, ← map_append, ← horder]
    exact h.lists hk
  obtain ⟨front, back, hsplit, hback⟩ :
      ∃ front back, a.map k.expr ++ xs ++ z.map k.expr = front ++ back ∧ back.head?.map Expr.id = mark := by
    cases mark with
    | none => exact ⟨_, [], (append_nil _).symm, rfl⟩
    | some m =>
      obtain ⟨x, hx, hid⟩ := hlists.mem_order.1 (hmark m rfl)
      obtain ⟨front, back, hsplit⟩ := append_of_mem hx
      exact ⟨front, x :: back, hsplit, congrArg some hid⟩
  obtain ⟨c, k₁, k₂, k', mapping, number, hpairs, hcopy, hloops, hinsert, hrec, hrel, hkeys, hold,
    hfresh, hnodup, htypes⟩ :=
    hlists.exists_recurs htable (hnumbers ▸ hrange) hids hsplit
  rw [hback] at hinsert
  have hcopies : c.copies = xs.map fun x => number x.id := by rw [RangeCopy.copies, hpairs, map_map]; rfl
  have hin : ∀ x ∈ xs, x ∈ a.map k.expr ++ xs ++ z.map k.expr := fun x hx => by simp [hx]
  -- the calls before the insertion do not touch the sequence
  have hbeside : k.Beside k₂ :=
    (beside_copyLoops c ids).of_ok ((beside_copyRange start stop).of_ok (.refl k) hcopy) hloops
  obtain ⟨hexact, hput⟩ := (h.beside hbeside).insertCopy
    (fun e he => by
      rw [hcopies] at he
      obtain ⟨x, hx, rfl⟩ := mem_map.1 he
      exact (hfresh x hx).2) (hbeside.order ▸ hmark) hinsert
  have hinternal : ∀ e ∈ range, ∀ t ∈ (k.expr e).inputs ++ (k.expr e).outputs,
      (c.tensors.lookup t.id).isSome ↔ k.Internal range t := by
    intro e he t ht
    rw [hnumbers] at he ⊢
    obtain ⟨x, hx, rfl⟩ := mem_map.1 he
    rw [hlists.read x (hin x hx)] at ht
    exact Kernel.Internal.isSome_iff hrec.copied hlists hk (hin x hx) ht
  have hown : ∀ t, k.Internal range t → (c.tensors.lookup t.id).isSome := by
    intro t ht
    obtain ⟨e, he, hmade⟩ := ht.made
    exact (hinternal e he t (mem_append_right _ hmade)).2 ht
  have hsame : ∀ t u, k.Internal range t → k.Internal range u → t.id = u.id → t = u := by
    intro t u ht hu hid
    obtain ⟨e, he, htmade⟩ := ht.made
    obtain ⟨f, hf, humade⟩ := hu.made
    exact hk.same e (hmem e he) f (hmem f hf) t (mem_append_right _ htmade) u (mem_append_right _ humade) hid
  have hmove : ∀ x ∈ xs, ∀ side index, c.movePort ⟨x.id, side, index⟩ = ⟨number x.id, side, index⟩ := by
    intro x hx side index
    have hfound : c.copyOf? x.id = some (number x.id) := by
      rw [RangeCopy.copyOf?, hpairs]
      exact lookup_map_number hx
    rw [RangeCopy.movePort, hfound, Option.getD_some]
  have hrenamed : ∀ id ∈ ids, ∃ j, mapping.lookup id = some j ∧ renamed mapping id = j := by
    intro id hid
    obtain ⟨j, hj⟩ := Option.isSome_iff_exists.1 ((hkeys id).2 hid)
    exact ⟨j, hj, by rw [renamed, hj, Option.getD_some]⟩
  refine ⟨c, k₁, mapping, k₂, k', hcopy, hloops, hinsert, ?_⟩
  exact {
    exact := hexact
    order := by rw [hput, hbeside.order]
    unchanged := hold
    registered := fun id info hinfo => (hrel.same id (by rw [hinfo]; rfl)).trans hinfo
    sources := by
      rw [hpairs, hnumbers, map_map]
      rfl
    fresh := by
      intro e he
      rw [hcopies] at he
      obtain ⟨x, hx, rfl⟩ := mem_map.1 he
      exact (hfresh x hx).1
    apart := hcopies ▸ hnodup
    payload := by
      intro p hp
      rw [hpairs] at hp
      obtain ⟨x, hx, rfl⟩ := mem_map.1 hp
      rw [hlists.read x (hin x hx)]
      exact hrec.read_copy hx
    renamed := by
      intro t ht
      obtain ⟨u, hu⟩ := Option.isSome_iff_exists.1 (hown t ht)
      obtain ⟨x, hx, v, hv, hid, htype⟩ := htypes t.id u hu
      have hvt : v = t := by
        refine hsame v t ?_ ht hid
        refine (hinternal x.id (hnumbers ▸ mem_map_of_mem hx) v ?_).1 (hid ▸ hown t ht)
        rw [hlists.read x (hin x hx)]
        exact mem_append_right _ hv
      rw [RangeCopy.rename, hu, Option.getD_some, ← hvt]
      exact ⟨htype, (hrec.copied.fresh.fresh t.id u hu).1⟩
    injective := by
      intro t u ht hu hid
      obtain ⟨e, he, hmade⟩ := ht.made
      have hlt := hk.known e (hmem e he) t (mem_append_right _ hmade)
      exact hsame t u ht hu (hrec.copied.eq_of_rename_id hlt (hown u hu) hid)
    producers := by
      intro t ht p
      rw [hnumbers]
      exact hrec.mem_ports_iff (hown t ht) (fun _ _ => .inr) (fun _ => hrec.copied.outputs) hmove
        hlists.mem_producers hrec.after.mem_producers p
    consumers := by
      intro t ht p
      rw [hnumbers]
      exact hrec.mem_ports_iff (hown t ht) (fun _ _ => .inl) (fun _ => hrec.copied.inputs) hmove
        hlists.mem_consumers hrec.after.mem_consumers p
    shared := by
      intro e he t ht hnot
      rcases RangeCopy.rename_cases c.tensors t with ⟨-, hself⟩ | hfound
      · exact hself
      · exact absurd ((hinternal e he t ht).1 (by rw [hfound]; rfl)) hnot
    listed := hkeys
    distinct := by
      intro i hi j hj hij
      obtain ⟨i', hi', hi⟩ := hrenamed i hi
      obtain ⟨j', hj', hj⟩ := hrenamed j hj
      rw [hi, hj] at hij
      exact hrel.injective hi' (hij ▸ hj')
    infos := by
      intro id hid
      obtain ⟨j, hj, hnew⟩ := hrenamed id hid
      rw [hnew]
      exact hrel.mapped (id, j) (Relooped.mem_of_lookup hj)
    tied := by
      intro b hb e he hbegin hend htied
      obtain ⟨B, hB, rfl⟩ := mem_map.1 (hnumbers ▸ hb)
      obtain ⟨E, hE, rfl⟩ := mem_map.1 (hnumbers ▸ he)
      have hread : ∀ x ∈ xs, k.expr x.id = x := fun x hx => hlists.read x (hin x hx)
      have hfind : ∀ (q : ExprId → Bool) (r : Expr → Bool), (∀ x ∈ xs, q x.id = r x) → ∀ X ∈ xs,
          range.find? q = some X.id → xs.find? r = some X := by
        intro q r hqr X hX hq
        rw [hnumbers, find?_map] at hq
        obtain ⟨Y, hY, hid⟩ := Option.map_eq_some_iff.1 hq
        obtain rfl := hlists.eq_of_id (hin Y (mem_of_find?_eq_some hY)) (hin X hX) hid
        rw [← hY]
        exact find?_congr fun x hx => (hqr x hx).symm
      obtain ⟨hcloses, tie, p, rest, htie, -, hopens, hp⟩ := Kernel.of_loopBeginOf_ok hbegin
      obtain ⟨made, hmade⟩ := Kernel.exists_tie_of_loopEndOf hend
      obtain ⟨hint, hfirst⟩ := htied.opening tie htie
      obtain ⟨hint', hfirst'⟩ := htied.closing made hmade
      rw [hp, hread B hB] at hopens
      rw [hread E hE] at hcloses htie
      rw [hread B hB] at hmade
      refine ⟨number B.id, number E.id, ?_, ?_, ?_, ?_⟩
      · rw [hpairs]
        exact mem_map_of_mem hB
      · rw [hpairs]
        exact mem_map_of_mem hE
      · refine hrec.loopBeginOf hB hE hopens hcloses htie (hown tie hint) ?_
        exact hfind _ _ (fun x hx => by rw [hread x hx]) B hB hfirst
      · refine hrec.loopEndOf hB hopens hmade (hown made hint') ?_
        exact hfind _ _ (fun x hx => by rw [hread x hx]) E hE hfirst' }

/-- A loop between markers, with a tensor that stays inside it. -/
def EditCall.marked : List EditCall :=
  let a : Tensor := { TensorType.planar .float32 [4] with id := 0 }
  let v : Tensor := { TensorType.planar .float32 [4] with id := 1 }
  let tie : Tensor := { TensorType.planar .float32 [] with id := 2 }
  [.newTensor a.toTensorType, .newTensor v.toTensorType, .newTensor tie.toTensorType,
    .newExpr .parameter "Parameter" [] [a] 1, .newExpr .loopBegin "LoopBegin" [] [tie] 1,
      .newExpr .load "Load" [a] [v] 1,
    .newExpr .elementwise "Exp" [v] [] 1, .newExpr .loopEnd "LoopEnd" [a, tie] [] 1, .append 0, .append 1, .append 2,
    .append 3, .append 4, .markLoop (some 2) (some 4) 0 4 4 0]

theorem Edit.copy_clones_marked : ∃ k, ({} : Kernel).edited EditCall.marked = some k ∧
    k.TiedWithin [1, 2, 3, 4] 1 4 ∧
    ∃ c k₁ mapping k₂ k', Edit.copyRange (some 1) none k = .ok c k₁ ∧ Edit.copyLoops c [0] k₁ = .ok mapping k₂ ∧
      Edit.insertCopy c (some 0) k₂ = .ok ⟨⟩ k' ∧ k.Cloned k' [1, 2, 3, 4] [0] (some 0) c mapping := by
  have hrun : ({} : Kernel).edited EditCall.marked = some ((({} : Kernel).edited EditCall.marked).getD {}) := by
    decide +kernel
  refine ⟨_, hrun, ⟨?_, ?_⟩, ?_⟩
  · intro t ht
    obtain rfl : (⟨TensorType.planar .float32 [], 2⟩ : Tensor) = t :=
      Option.some.inj (Eq.trans (by decide +kernel) ht)
    exact ⟨⟨by decide +kernel, by decide +kernel⟩, by decide +kernel⟩
  · intro t ht
    obtain rfl : (⟨TensorType.planar .float32 [], 2⟩ : Tensor) = t :=
      Option.some.inj (Eq.trans (by decide +kernel) ht)
    exact ⟨⟨by decide +kernel, by decide +kernel⟩, by decide +kernel⟩
  · exact Edit.copy_clones ((Kernel.Exact.empty _).edited hrun)
      ⟨by decide +kernel, by decide +kernel⟩ ⟨by decide +kernel⟩
      (by decide +kernel) (by decide +kernel) (by decide +kernel) (by decide +kernel)

/-- Two markers with a tie that is taken behind them as well. -/
def EditCall.sharedTie : List EditCall :=
  let tie : Tensor := { TensorType.planar .float32 [4] with id := 0 }
  [.newTensor tie.toTensorType, .newExpr .loopBegin "LoopBegin" [] [tie] 1, .newExpr .loopEnd "LoopEnd" [tie] [] 1,
    .newExpr .elementwise "Add" [tie] [] 1, .append 0, .append 1, .append 2]

/-- Two opening markers with one tie, of which the second has been inserted first. -/
def EditCall.lateTie : List EditCall :=
  let tie : Tensor := { TensorType.planar .float32 [4] with id := 0 }
  [.newTensor tie.toTensorType, .newExpr .loopBegin "LoopBegin" [] [tie] 1, .newExpr .loopBegin "LoopBegin" [] [tie] 1,
    .newExpr .loopEnd "LoopEnd" [tie] [] 1, .append 1, .insertBefore 0 (some 1), .append 2]

/-- The copy of a pair of markers need not be a pair: a tie that is taken outside the range is
    shared, and the copies of the markers are registered in the order of the range. -/
theorem Edit.copy_breaks_pairs :
    let shared : RangeCopy := { pairs := [(0, 3), (1, 4)], tensors := [] }
    let late : RangeCopy :=
      { pairs := [(0, 3), (1, 4), (2, 5)], tensors := [(0, { TensorType.planar .float32 [4] with id := 1 })] }
    ((({} : Kernel).edited EditCall.sharedTie).map fun k =>
        (k.loopBeginOf 1, k.loopEndOf 0, (Edit.copyRange (some 0) (some 2)).run' k)) =
      some (.ok 0, .ok 1, some shared) ∧
    ((({} : Kernel).edited (EditCall.sharedTie ++
        [.copyRange (some 0) (some 2), .copyLoops shared [], .insertCopy shared none])).map fun k => k.loopBeginOf 4) =
      some (.ok 0) ∧
    ((({} : Kernel).edited EditCall.lateTie).map fun k =>
        (k.loopBeginOf 2, k.loopEndOf 1, (Edit.copyRange (some 0) none).run' k)) =
      some (.ok 1, .ok 2, some late) ∧
    ((({} : Kernel).edited (EditCall.lateTie ++
        [.copyRange (some 0) none, .copyLoops late [], .insertCopy late none])).map fun k => k.loopBeginOf 5) =
      some (.ok 3) := by
  decide +kernel

end KernelLoops
