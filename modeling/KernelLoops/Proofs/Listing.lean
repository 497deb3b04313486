import Mathlib.Data.List.Nodup
import KernelLoops.Proofs.Keeping

set_option autoImplicit false

/-! # What a kernel lists

A kernel keeps its expressions by number, its sequence as a list of numbers and its data flow in an
index. `Kernel.Lists k xs` says that all three agree on one list of expressions. Edits are then
described by what they do to that list. -/

namespace KernelLoops

open List

variable {k : Kernel} {e : ExprId} {p : Port} {t : TensorId}

namespace Kernel

/-- The tensors that the expressions of a kernel have as operands. -/
def tensors (k : Kernel) : List Tensor := k.sequence.flatMap fun x => x.inputs ++ x.outputs

/-! ## Reading expressions -/

/-- Changing one expression changes what is read under its number only. -/
theorem expr_modify (k : Kernel) (e i : ExprId) (f : Expr → Expr) :
    ({ k with exprs := k.exprs.modify e f } : Kernel).expr i =
      if i = e ∧ i < k.exprs.size then f (k.expr i) else k.expr i := by
  simp only [expr, Array.getD_eq_getD_getElem?, Array.getElem?_modify]
  by_cases hi : i = e
  · subst hi
    by_cases hs : i < k.exprs.size
    · simp [hs]
    · simp [hs]
  · rw [if_neg (Ne.symm hi), if_neg (fun h => hi h.1)]

/-- What the change leaves of the expression is left of all of them. -/
theorem field_modify {α : Type} (field : Expr → α) {f : Expr → Expr}
    (h : field (f (k.expr e)) = field (k.expr e))
    (i : ExprId) : field (({ k with exprs := k.exprs.modify e f } : Kernel).expr i) = field (k.expr i) := by
  rw [expr_modify]
  split
  · next hi => rw [hi.1, h]
  · rfl

/-- A new expression is read under the next number. -/
theorem expr_push (k : Kernel) (x : Expr) (i : ExprId) :
    ({ k with exprs := k.exprs.push x } : Kernel).expr i =
      if i = k.exprs.size then x else k.expr i := by
  simp only [expr, Array.getD_eq_getD_getElem?, Array.getElem?_push]
  split
  · rfl
  · rfl

/-- A number that was never handed out reads as an empty expression. -/
theorem expr_of_size_le (h : k.exprs.size ≤ e) : k.expr e = default := by
  simp [expr, Array.getD_eq_getD_getElem?, Array.getElem?_eq_none h]

/-- Only an expression that was made has a kind other than the first. -/
theorem lt_size_of_kind_ne (h : (k.expr e).kind ≠ .parameter) : e < k.exprs.size := by
  by_contra hlt
  rw [expr_of_size_le (Nat.le_of_not_lt hlt)] at h
  exact h rfl

end Kernel

/-! ## Changing many expressions -/

section Each

variable {α : Type} (key : α → ExprId) (f : α → Expr → Expr)

/-- The kernel with one expression changed for each item of a list. -/
def Kernel.modifyEach (xs : List α) (k : Kernel) : Kernel :=
  xs.foldl (fun k a => { k with exprs := k.exprs.modify (key a) (f a) }) k

theorem Edit.forM_modifyExpr_run (xs : List α) (k : Kernel) :
    xs.forM (fun a => modifyExpr (key a) (f a)) k = .ok ⟨⟩ (k.modifyEach key f xs) := by
  induction xs generalizing k with
  | nil => rfl
  | cons a xs ih => exact ih { k with exprs := k.exprs.modify (key a) (f a) }

/-- Nothing but expressions changes. -/
theorem Kernel.modifyEach_eq (xs : List α) (k : Kernel) :
    k.modifyEach key f xs = { k with exprs := (k.modifyEach key f xs).exprs } := by
  induction xs generalizing k with
  | nil => rfl
  | cons a xs ih => exact ih { k with exprs := k.exprs.modify (key a) (f a) }

/-- An expression that is not among those changed stays. -/
theorem Kernel.expr_modifyEach_of_not_mem {xs : List α} (k : Kernel) (he : e ∉ xs.map key) :
    (k.modifyEach key f xs).expr e = k.expr e := by
  induction xs generalizing k with
  | nil => rfl
  | cons a xs ih =>
    rw [map_cons, mem_cons, not_or] at he
    have hrest := ih ({ k with exprs := k.exprs.modify (key a) (f a) } : Kernel) he.2
    rwa [Kernel.expr_modify, if_neg fun h => he.1 h.1] at hrest

theorem Kernel.size_modifyEach (xs : List α) (k : Kernel) :
    (k.modifyEach key f xs).exprs.size = k.exprs.size := by
  induction xs generalizing k with
  | nil => rfl
  | cons a xs ih => exact (ih _).trans (by simp)

/-- An expression that one item stands for is changed as the item says. -/
theorem Kernel.expr_modifyEach_of_mem {xs : List α} {a : α} (k : Kernel)
    (hnodup : (xs.map key).Nodup)
    (ha : a ∈ xs) (hsize : key a < k.exprs.size) :
    (k.modifyEach key f xs).expr (key a) = f a (k.expr (key a)) := by
  induction xs generalizing k with
  | nil => cases ha
  | cons b xs ih =>
    rw [map_cons, nodup_cons] at hnodup
    let k' : Kernel := { k with exprs := k.exprs.modify (key b) (f b) }
    show (k'.modifyEach key f xs).expr (key a) = _
    rcases mem_cons.1 ha with rfl | ha
    · rw [Kernel.expr_modifyEach_of_not_mem key f k' hnodup.1, Kernel.expr_modify, if_pos ⟨rfl, hsize⟩]
    · have hne : key a ≠ key b := fun h => hnodup.1 (h ▸ mem_map_of_mem ha)
      rw [ih k' hnodup.2 ha (by simpa [k'] using hsize), Kernel.expr_modify, if_neg fun h => hne h.1]

end Each

/-- What the links of an expression say. -/
theorem Edit.mem_links {side : Side} {ts : List Tensor} {l : Link} :
    l ∈ links e side ts ↔
      l.port.expr = e ∧ l.port.side = side ∧ ∃ t, ts[l.port.index]? = some t ∧ l.tensor = t.id := by
  obtain ⟨tensor, ⟨expr, s, index⟩⟩ := l
  simp only [links, mem_map, mem_zipIdx_iff_getElem?, Prod.exists, Link.mk.injEq, Port.mk.injEq]
  constructor
  · rintro ⟨t, i, ht, rfl, rfl, rfl, rfl⟩
    exact ⟨rfl, rfl, t, ht, rfl⟩
  · rintro ⟨rfl, rfl, t, ht, rfl⟩
    exact ⟨t, index, ht, rfl, rfl, rfl, rfl⟩

/-- The links of operands one of which is replaced. -/
theorem Edit.mem_links_set {side : Side} {ts : List Tensor} {l : Link} {i : Nat} {old new : Tensor}
    (hold : ts[i]? = some old) : l ∈ links e side (ts.set i new) ↔
      l ∈ links e side ts ∧ l ≠ ⟨old.id, ⟨e, side, i⟩⟩ ∨ l = ⟨new.id, ⟨e, side, i⟩⟩ := by
  obtain ⟨tensor, ⟨expr, s, index⟩⟩ := l
  simp only [mem_links, ne_eq, Link.mk.injEq, Port.mk.injEq]
  by_cases hi : i = index
  · subst hi
    rw [getElem?_set_self (List.getElem?_eq_some_iff.1 hold).1, hold]
    simp only [Option.some.injEq, exists_eq_left']
    tauto
  · rw [getElem?_set_ne hi]
    simp [Ne.symm hi]

/-! ## The list of a kernel -/

namespace Kernel

open Edit

/-- The sequence, the expressions and the data-flow index of a kernel are those of a list of
    expressions. -/
structure Lists (k : Kernel) (xs : List Expr) : Prop where
  order : k.order = xs.map Expr.id
  read : ∀ x ∈ xs, k.expr x.id = x
  made : ∀ x ∈ xs, x.id < k.exprs.size
  nodup : (xs.map Expr.id).Nodup
  consumed : ∀ l, l ∈ k.consumed ↔ ∃ x ∈ xs, l ∈ links x.id .input x.inputs
  produced : ∀ l, l ∈ k.produced ↔ ∃ x ∈ xs, l ∈ links x.id .output x.outputs
  known : ∀ x ∈ xs, ∀ t, t ∈ x.inputs ∨ t ∈ x.outputs → t.id < k.nextTensor

/-- The kernel with a new expression inserted before a mark. -/
def added (k : Kernel) (y : Expr) (mark : Option ExprId) : Kernel :=
  placed y.id mark { k with exprs := k.exprs.push y }

theorem added_produced {y : Expr} (mark : Option ExprId) (hid : y.id = k.exprs.size) :
    (k.added y mark).produced = k.produced ++ links y.id .output y.outputs := by
  rw [added, placed, expr_push, if_pos hid]

namespace Lists

variable {k' : Kernel} {xs pre post : List Expr} {x y : Expr}

/-- Expressions are told apart by their numbers. -/
theorem eq_of_id (h : k.Lists xs) (hx : x ∈ xs) (hy : y ∈ xs) (hid : x.id = y.id) : x = y := by
  rw [← h.read x hx, ← h.read y hy, hid]

theorem mem_order (h : k.Lists xs) : e ∈ k.order ↔ ∃ x ∈ xs, x.id = e := by
  rw [h.order, mem_map]

theorem attached (h : k.Lists xs) (hx : x ∈ xs) : k.attached x.id = true := by
  rw [Kernel.attached, contains_iff_mem, h.mem_order]
  exact ⟨x, hx, rfl⟩

theorem sequence (h : k.Lists xs) : k.sequence = xs := by
  rw [Kernel.sequence, h.order, map_map]
  calc xs.map (k.expr ∘ Expr.id) = xs.map id := map_congr_left h.read
    _ = xs := map_id xs

/-- The ports that an index lists for a tensor. -/
theorem mem_ports {side : Side} {operands : Expr → List Tensor} {index : List Link}
    (h : ∀ l, l ∈ index ↔ ∃ x ∈ xs, l ∈ links x.id side (operands x)) : p ∈
    (index.filter (·.tensor = t)).map Link.port ↔
      ∃ x ∈ xs, p.expr = x.id ∧ p.side = side ∧ ∃ u, (operands x)[p.index]? = some u ∧ t = u.id := by
  simp only [mem_map, mem_filter, decide_eq_true_eq, h, mem_links]
  constructor
  · rintro ⟨l, ⟨⟨x, hx, he, hs, u, hu, ht⟩, rfl⟩, rfl⟩
    exact ⟨x, hx, he, hs, u, hu, ht⟩
  · rintro ⟨x, hx, he, hs, u, hu, ht⟩
    exact ⟨⟨t, p⟩, ⟨⟨x, hx, he, hs, u, hu, ht⟩, rfl⟩, rfl⟩

theorem mem_consumers (h : k.Lists xs) : p ∈ k.consumers t ↔
    ∃ x ∈ xs, p.expr = x.id ∧ p.side = .input ∧ ∃ u, x.inputs[p.index]? = some u ∧ t = u.id := mem_ports h.consumed

theorem mem_producers (h : k.Lists xs) : p ∈ k.producers t ↔
    ∃ x ∈ xs, p.expr = x.id ∧ p.side = .output ∧ ∃ u, x.outputs[p.index]? = some u ∧ t = u.id := mem_ports h.produced

/-- The empty kernel lists nothing. -/
theorem nil (config : Config) : ({ config } : Kernel).Lists [] where
  order := rfl
  read := by simp
  made := by simp
  nodup := nodup_nil
  consumed := by simp
  produced := by simp
  known := by simp

/-- What is listed depends on the sequence, the listed expressions, the index and the names in
    use. -/
theorem congr (h : k.Lists xs) (order : k'.order = k.order) (consumed : k'.consumed = k.consumed)
    (produced : k'.produced = k.produced) (size : k.exprs.size ≤ k'.exprs.size)
    (next : k.nextTensor ≤ k'.nextTensor) (read : ∀ x ∈ xs, k'.expr x.id = k.expr x.id) : k'.Lists xs where
  order := order.trans h.order
  read x hx := (read x hx).trans (h.read x hx)
  made x hx := Nat.lt_of_lt_of_le (h.made x hx) size
  nodup := h.nodup
  consumed := consumed ▸ h.consumed
  produced := produced ▸ h.produced
  known x hx t ht := Nat.lt_of_lt_of_le (h.known x hx t ht) next

/-- An expression outside the sequence does not show. -/
theorem push (h : k.Lists xs) (y : Expr) :
    ({ k with exprs := k.exprs.push y } : Kernel).Lists xs := by
  refine h.congr rfl rfl rfl (by simp) (Nat.le_refl _) fun x hx => ?_
  rw [expr_push, if_neg (Nat.ne_of_lt (h.made x hx))]

/-- Changing an expression outside the list does not show. -/
theorem modify_other (h : k.Lists xs) (f : Expr → Expr) (he : ∀ x ∈ xs, x.id ≠ e) :
    ({ k with exprs := k.exprs.modify e f } : Kernel).Lists xs := by
  refine h.congr rfl rfl rfl (by simp) (Nat.le_refl _) fun x hx => ?_
  rw [expr_modify, if_neg fun hxe => he x hx hxe.1]

theorem mem_middle : x ∈ pre ++ y :: post ↔ x = y ∨ x ∈ pre ++ post :=
  perm_middle.mem_iff.trans mem_cons

theorem exists_mem_middle {P : Expr → Prop} :
    (∃ x ∈ pre ++ y :: post, P x) ↔ P y ∨ ∃ x ∈ pre ++ post, P x := by
  simp only [mem_middle, or_and_right, exists_or, exists_eq_left]

theorem id_ne (h : k.Lists (pre ++ x :: post)) (hy : y ∈ pre ++ post) : y.id ≠ x.id := by
  have hnodup := h.nodup
  rw [map_append, map_cons, nodup_middle, nodup_cons, ← map_append] at hnodup
  exact fun hyx => hnodup.1 (hyx ▸ mem_map_of_mem hy)

/-- Changing a listed expression in anything but its number and its outputs. -/
theorem exchange (h : k.Lists (pre ++ x :: post)) {f : Expr → Expr} (id : (f x).id = x.id)
    (outputs : (f x).outputs = x.outputs) {consumed : List Link}
    (hconsumed : ∀ l, l ∈ consumed ↔
      l ∈ links x.id .input (f x).inputs ∨ ∃ y ∈ pre ++ post, l ∈ links y.id .input y.inputs)
    (hknown : ∀ t ∈ (f x).inputs, t.id < k.nextTensor) :
    ({ k with exprs := k.exprs.modify x.id f, consumed } : Kernel).Lists (pre ++ f x :: post) := by
  have hx : x ∈ pre ++ x :: post := by simp
  have hids : (pre ++ f x :: post).map Expr.id = (pre ++ x :: post).map Expr.id := by simp [id]
  have hold : ∀ {y}, y ∈ pre ++ post → y ∈ pre ++ x :: post := fun hy => mem_middle.2 (.inr hy)
  exact {
    order := h.order.trans hids.symm
    read := fun y hy => by
      rcases mem_middle.1 hy with rfl | hy
      · exact (expr_modify k x.id _ f).trans (by rw [if_pos ⟨id, id ▸ h.made x hx⟩, id, h.read x hx])
      · exact (expr_modify k x.id _ f).trans (by rw [if_neg fun hyx => h.id_ne hy hyx.1, h.read y (hold hy)])
    made := fun y hy => by
      simp only [Array.size_modify]
      rcases mem_middle.1 hy with rfl | hy
      · exact id ▸ h.made x hx
      · exact h.made y (hold hy)
    nodup := hids ▸ h.nodup
    consumed := fun l => (hconsumed l).trans (by rw [exists_mem_middle, id])
    produced := fun l => (h.produced l).trans (by rw [exists_mem_middle, exists_mem_middle, id, outputs])
    known := fun y hy t ht => by
      rcases mem_middle.1 hy with rfl | hy
      · exact ht.elim (hknown t) fun ht => h.known x hx t (.inr (outputs ▸ ht))
      · exact h.known y (hold hy) t ht }

/-- Changing a listed expression in anything but its number and its operands. -/
theorem modify (h : k.Lists (pre ++ x :: post)) {f : Expr → Expr} (id : (f x).id = x.id)
    (inputs : (f x).inputs = x.inputs) (outputs : (f x).outputs = x.outputs) :
    ({ k with exprs := k.exprs.modify x.id f } : Kernel).Lists (pre ++ f x :: post) := by
  refine h.exchange id outputs (fun l => (h.consumed l).trans ?_) fun t ht => ?_
  · rw [exists_mem_middle, inputs]
  · exact h.known x (by simp) t (.inl (inputs ▸ ht))

/-- An insertion before what follows `pre`, seen on the list of numbers. -/
theorem insertAt_append {mark : ExprId} {pre post : List ExprId} (h : mark ∉ pre) :
    insertAt e mark (pre ++ mark :: post) = pre ++ e :: mark :: post := by
  induction pre with
  | nil => simp [insertAt]
  | cons y ys ih =>
    rw [mem_cons, not_or] at h
    rw [cons_append, insertAt, if_neg (Ne.symm h.1), ih h.2, cons_append]

theorem place_append {pre post : List ExprId} (h : (pre ++ post).Nodup) :
    place e post.head? (pre ++ post) = pre ++ e :: post := by
  cases post with
  | nil => simp [place]
  | cons mark rest =>
    have hmark : mark ∉ pre := fun hm =>
      disjoint_of_nodup_append h hm mem_cons_self
    exact insertAt_append hmark

/-- Inserting a new expression, given where. -/
theorem place (h : k.Lists (pre ++ post)) (hread : k.expr y.id = y) (hmade : y.id < k.exprs.size)
    (hnew : ∀ x ∈ pre ++ post, x.id ≠ y.id)
    (hknown : ∀ t, t ∈ y.inputs ∨ t ∈ y.outputs → t.id < k.nextTensor) :
    (placed y.id (post.head?.map Expr.id) k).Lists (pre ++ y :: post) := by
  have hmark : post.head?.map Expr.id = (post.map Expr.id).head? := by simp
  have hnodup := h.nodup
  rw [map_append] at hnodup
  exact {
    order := by
      show Edit.place y.id _ k.order = _
      rw [h.order, hmark, map_append, place_append hnodup]
      simp
    read := fun x hx => by
      rcases mem_middle.1 hx with rfl | hx
      · exact hread
      · exact h.read x hx
    made := fun x hx => by
      rcases mem_middle.1 hx with rfl | hx
      · exact hmade
      · exact h.made x hx
    nodup := by
      rw [map_append, map_cons, nodup_middle, nodup_cons, ← map_append]
      refine ⟨fun hmem => ?_, h.nodup⟩
      obtain ⟨x, hx, hid⟩ := mem_map.1 hmem
      exact hnew x hx hid
    consumed := fun l => by
      rw [exists_mem_middle, or_comm, ← h.consumed]
      simp only [placed, mem_append, hread]
    produced := fun l => by
      rw [exists_mem_middle, or_comm, ← h.produced]
      simp only [placed, mem_append, hread]
    known := fun x hx t ht => by
      rcases mem_middle.1 hx with rfl | hx
      · exact hknown t ht
      · exact h.known x hx t ht }

/-- An expression that was just made can be inserted before what follows `pre`. -/
theorem insertBefore_run (h : k.Lists (pre ++ post)) (hnew : ∀ x ∈ pre ++ post, x.id ≠ y.id) :
    insertBefore y.id (post.head?.map Expr.id) k =
      .ok () (placed y.id (post.head?.map Expr.id) k) := by
  have hfree : k.attached y.id = false := by
    rw [Kernel.attached, ← Bool.not_eq_true, contains_iff_mem, h.mem_order]
    rintro ⟨x, hx, hid⟩
    exact hnew x hx hid
  rw [Edit.insertBefore_run, if_neg (by rw [hfree]; exact Bool.false_ne_true)]
  cases post with
  | nil => rfl
  | cons m rest => exact if_pos (h.attached (by simp))

/-- A new expression is made and inserted before what follows `pre`. -/
theorem added (h : k.Lists (pre ++ post)) (hid : y.id = k.exprs.size)
    (hknown : ∀ t, t ∈ y.inputs ∨ t ∈ y.outputs → t.id < k.nextTensor) :
    insertBefore y.id (post.head?.map Expr.id) { k with exprs := k.exprs.push y } =
        .ok () (k.added y (post.head?.map Expr.id)) ∧
      (k.added y (post.head?.map Expr.id)).Lists (pre ++ y :: post) := by
  have hpush := h.push y
  have hnew : ∀ x ∈ pre ++ post, x.id ≠ y.id := fun x hx => hid ▸ Nat.ne_of_lt (h.made x hx)
  refine ⟨hpush.insertBefore_run hnew, hpush.place ?_ ?_ hnew hknown⟩
  · rw [expr_push, if_pos hid]
  · simp [hid]

/-- The kernel with one input of an expression rewired. -/
def rewired (k : Kernel) (x : Expr) (i : Nat) (old new : Tensor) : Kernel :=
  { k with
    exprs := k.exprs.modify x.id fun x => { x with inputs := x.inputs.set i new }
    consumed := k.consumed.filter (· != { tensor := old.id, port := { expr := x.id, side := .input, index := i } }) ++
      [{ tensor := new.id, port := { expr := x.id, side := .input, index := i } }] }

/-- Rewiring an input of a listed expression. -/
theorem replaceInput (h : k.Lists (pre ++ x :: post)) {i : Nat} {old new : Tensor}
    (hold : x.inputs[i]? = some old) (hnew : new.id < k.nextTensor) :
    Edit.replaceInput x.id i new k = .ok () (rewired k x i old new) ∧
      (rewired k x i old new).Lists (pre ++ { x with inputs := x.inputs.set i new } :: post) := by
  have hx : x ∈ pre ++ x :: post := by simp
  have hread := h.read x hx
  constructor
  · have hask : Edit.ask (fun k => (k.expr x.id).input i) k = .ok old k := by
      refine ask_run_ok ?_
      rw [hread]
      exact fetch_eq_ok_iff.2 hold
    have hattached : requireAttached x.id k = .ok () k := if_pos (h.attached hx)
    unfold Edit.replaceInput
    rw [bind_run_ok hattached, bind_run_ok hask]
    rfl
  · refine h.exchange rfl rfl (fun l => ?_) fun t ht => ?_
    · rw [mem_append, mem_filter, mem_singleton, h.consumed, exists_mem_middle, mem_links_set hold, bne_iff_ne]
      have hother : (∃ y ∈ pre ++ post, l ∈ links y.id .input y.inputs) → l ≠ ⟨old.id, ⟨x.id, .input, i⟩⟩ := by
        rintro ⟨y, hy, hl⟩ rfl
        exact h.id_ne hy (mem_links.1 hl).1.symm
      rw [or_and_right, and_iff_left_of_imp hother, or_right_comm]
    · rcases mem_or_eq_of_mem_set ht with ht | rfl
      · exact h.known x hx t (.inl ht)
      · exact hnew

end Lists

end Kernel

end KernelLoops
