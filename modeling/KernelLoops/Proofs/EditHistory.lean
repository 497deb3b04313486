import KernelLoops.Proofs.Nesting
import KernelLoops.Proofs.Tidy

set_option autoImplicit false

/-! # Histories of edits

A kernel that was made by edits alone is a list with an exact index. Whatever calls led to it, the
data-flow index holds the ports of the sequence and no others, each once, and every call does to the
sequence what its name says of a plain list. -/

namespace KernelLoops

open List hiding beq_eq_decide

variable {k k' : Kernel} {e m : ExprId} {f : ExprId → List ExprId} {xs post pre : List ExprId}
  {ls : List Link}
  {n : Nat} {mark : Option ExprId}

/-! ## Calls -/

/-- One call of an edit. -/
inductive EditCall
  | newTensor (t : TensorType)
  | newExpr (kind : OpKind) (op : String) (inputs outputs : List Tensor) (depth : Amount)
  | append (e : ExprId)
  | insertBefore (e : ExprId) (mark : Option ExprId)
  | insertAfter (e mark : ExprId)
  | move (e : ExprId) (mark : Option ExprId)
  | remove (e : ExprId)
  | replaceInput (e : ExprId) (i : Int) (t : Tensor)
  | markLoop (start stop : Option ExprId) (depth workAmount increment dim : Amount)
  | copyRange (start stop : Option ExprId)
  | copyLoops (c : RangeCopy) (ids : List LoopId)
  | insertCopy (c : RangeCopy) (mark : Option ExprId)
deriving DecidableEq, Repr

/-- The list with items before a mark, or at its end. -/
def putBefore (mark : Option ExprId) (es xs : List ExprId) : List ExprId :=
  match mark with
  | none => xs ++ es
  | some m => xs.flatMap fun x => if x = m then es ++ [x] else [x]

namespace EditCall

/-- Makes the call. -/
def run : EditCall → Edit Unit
  | newTensor t => do let _ ← Edit.newTensor t
  | newExpr kind op inputs outputs depth => do let _ ← Edit.newExpr kind op inputs outputs depth
  | append e => Edit.append e
  | insertBefore e mark => Edit.insertBefore e mark
  | insertAfter e mark => Edit.insertAfter e mark
  | move e mark => Edit.move e mark
  | remove e => Edit.remove e
  | replaceInput e i t => Edit.replaceInput e i t
  | markLoop start stop depth workAmount increment dim => do
    let _ ← Edit.markLoop start stop depth workAmount increment dim
  | copyRange start stop => do let _ ← Edit.copyRange start stop
  | copyLoops c ids => do let _ ← Edit.copyLoops c ids
  | insertCopy c mark => Edit.insertCopy c mark

/-- Is the call made with expressions the kernel has made, and with marks of its sequence? -/
def known (k : Kernel) : EditCall → Bool
  | newTensor _ | newExpr .. => true
  | append e | remove e | replaceInput e _ _ => e < k.exprs.size
  | insertBefore e mark | move e mark => e < k.exprs.size && mark.all k.attached
  | insertAfter e mark => e < k.exprs.size && k.attached mark
  | markLoop start stop _ _ _ _ | copyRange start stop =>
    start.all (· < k.exprs.size) && stop.all (· < k.exprs.size)
  | copyLoops c _ => c.copies.all (· < k.exprs.size)
  | insertCopy c mark => c.copies.all (· < k.exprs.size) && mark.all k.attached

/-- What the call does to a plain list. -/
def onList : EditCall → List ExprId → List ExprId
  | append e, xs => xs ++ [e]
  | insertBefore e mark, xs => putBefore mark [e] xs
  | insertAfter e mark, xs => xs.flatMap fun x => if x = mark then [x, e] else [x]
  | move e mark, xs => if some e = mark then xs else putBefore mark [e] (xs.filter (· ≠ e))
  | remove e, xs => xs.filter (· ≠ e)
  | insertCopy c mark, xs => putBefore mark c.copies xs
  | _, xs => xs

end EditCall

/-- The kernel after a list of calls, where each of them is made with what is known by then and
    succeeds. -/
def Kernel.edited (k : Kernel) : List EditCall → Option Kernel
  | [] => some k
  | c :: calls =>
    if c.known k then
      match c.run k with
      | .ok _ k' => k'.edited calls
      | .error _ _ => none
    else none

/-! ## What the calls leave -/

namespace Edit

/-- A removal happens as a whole or not at all. -/
theorem remove_run (e : ExprId) (k : Kernel) :
    remove e k =
      if k.attached e then
        .ok () { k with
          order := k.order.erase e
          consumed := k.consumed.filter fun l => !(links e .input (k.expr e).inputs).contains l
          produced := k.produced.filter fun l => !(links e .output (k.expr e).outputs).contains l }
      else .error (.violation (.notAttached e)) k := by
  unfold remove
  rw [bind_run, requireAttached]
  by_cases he : k.attached e
  · simp only [if_pos he]
    rfl
  · simp only [if_neg he]

/-- A move takes the expression out before it looks for the mark. -/
theorem move_run (e : ExprId) (mark : Option ExprId) (k : Kernel) :
    move e mark k =
      if k.attached e then
        if some e = mark then .ok () k
        else match mark with
          | none => .ok () { k with order := place e none (k.order.erase e) }
          | some m =>
            if (k.order.erase e).contains m then
              .ok () { k with order := place e (some m) (k.order.erase e) }
            else .error (.violation (.notAttached m)) { k with order := k.order.erase e }
      else .error (.violation (.notAttached e)) k := by
  unfold move
  rw [bind_run, requireAttached]
  by_cases he : k.attached e
  · simp only [if_pos he]
    by_cases hm : some e = mark
    · rw [if_neg (not_not.2 hm), if_pos hm]
      rfl
    · rw [if_pos hm, if_neg hm]
      cases mark with
      | none => rfl
      | some m =>
        show link e (some m) { k with order := k.order.erase e } = _
        rw [link, bind_run, requireAttached]
        cases hc : (k.order.erase e).contains m <;> simp only [Kernel.attached, hc] <;> rfl
  · simp only [if_neg he]

/-- Rewiring an input happens as a whole or not at all. -/
theorem replaceInput_run (e : ExprId) (i : Int) (t : Tensor) (k : Kernel) :
    replaceInput e i t k =
      if k.attached e then
        match (k.expr e).input i with
        | .ok old =>
          let port : Port := { expr := e, side := .input, index := i.toNat }
          .ok () { k with
            exprs := k.exprs.modify e fun x => { x with inputs := x.inputs.set i.toNat t }
            consumed := k.consumed.filter (· != { tensor := old.id, port }) ++ [{ tensor := t.id, port }] }
        | .error f => .error f k
      else .error (.violation (.notAttached e)) k := by
  unfold replaceInput
  rw [bind_run, requireAttached]
  by_cases he : k.attached e
  · simp only [if_pos he]
    rw [bind_run, ask]
    cases (k.expr e).input i <;> rfl
  · simp only [if_neg he]

end Edit

/-! ## Lists and marks -/

/-- An item of a list without repetitions does not stand before itself. -/
theorem not_mem_of_nodup (h : (pre ++ m :: post).Nodup) : m ∉ pre := by
  intro hm
  exact disjoint_of_nodup_append h hm (mem_cons_self ..)

theorem flatMap_of_not_mem (h : m ∉ xs) : (xs.flatMap fun x => if x = m then f x else [x]) = xs := by
  induction xs with
  | nil => rfl
  | cons x xs ih =>
    rw [mem_cons, not_or] at h
    rw [flatMap_cons, if_neg (Ne.symm h.1), ih h.2]
    rfl

/-- What stands around the first occurrence of a mark stays. -/
theorem flatMap_append_cons (h : (pre ++ m :: post).Nodup) :
    ((pre ++ m :: post).flatMap fun x => if x = m then f x else [x]) = pre ++ (f m ++ post) := by
  have hpost : m ∉ post := (nodup_cons.1 (nodup_append.1 h).2.1).1
  rw [flatMap_append, flatMap_cons, flatMap_of_not_mem (not_mem_of_nodup h), flatMap_of_not_mem hpost,
    if_pos rfl]

/-- Inserting one expression before a mark of a list. -/
theorem Edit.place_eq (h : xs.Nodup) (hmark : ∀ m ∈ mark, m ∈ xs) :
    place e mark xs = putBefore mark [e] xs := by
  cases mark with
  | none => rfl
  | some m =>
    obtain ⟨pre, post, rfl⟩ := append_of_mem (hmark m rfl)
    show insertAt e m (pre ++ m :: post) = (pre ++ m :: post).flatMap fun x => if x = m then [e] ++ [x] else [x]
    rw [Kernel.Lists.insertAt_append (not_mem_of_nodup h), flatMap_append_cons h]
    rfl

/-- Items that come one after the other before a mark stand there in their order. -/
theorem putBefore_cons (hne : some e ≠ mark) (es xs : List ExprId) :
    putBefore mark es (putBefore mark [e] xs) = putBefore mark (e :: es) xs := by
  cases mark with
  | none => exact append_assoc xs [e] es
  | some m =>
    have he : e ≠ m := fun h => hne (congrArg some h)
    simp only [putBefore, flatMap_assoc]
    congr 1
    funext x
    split
    · next hx => simp [hx, he]
    · next hx => simp [hx]

/-! ## The index of a sequence -/

/-- The links are those of the operands of a sequence on one side, each once. -/
structure Indexes (side : Side) (order : List ExprId) (operands : ExprId → List Tensor)
    (ls : List Link) :
    Prop where
  nodup : ls.Nodup
  mem : ∀ l, l ∈ ls ↔ ∃ e ∈ order, l ∈ Edit.links e side (operands e)

namespace Indexes

open Edit

variable {side : Side} {order order' : List ExprId} {operands operands' : ExprId → List Tensor}

theorem nodup_links (e : ExprId) (side : Side) (ts : List Tensor) : (links e side ts).Nodup := by
  refine List.Nodup.of_map (fun l => l.port.index) ?_
  have hindex : (links e side ts).map (fun l => l.port.index) = range' 0 ts.length := by
    rw [links, map_map]
    exact zipIdx_map_snd 0 ts
  rw [hindex]
  exact nodup_range' ..

variable (h : Indexes side order operands ls)

include h

theorem congr (horder : ∀ e, e ∈ order' ↔ e ∈ order)
    (hoperands : ∀ e ∈ order, operands' e = operands e) : Indexes side order' operands' ls where
  nodup := h.nodup
  mem := by
    intro l
    rw [h.mem]
    constructor
    · rintro ⟨e, he, hl⟩
      exact ⟨e, (horder e).2 he, by rwa [hoperands e he]⟩
    · rintro ⟨e, he, hl⟩
      have he' := (horder e).1 he
      exact ⟨e, he', by rwa [hoperands e he'] at hl⟩

/-- The links of an expression that joins the sequence. -/
theorem add (he : e ∉ order) (horder : ∀ x, x ∈ order' ↔ x = e ∨ x ∈ order) :
    Indexes side order' operands (ls ++ links e side (operands e)) where
  nodup := by
    refine nodup_append.2 ⟨h.nodup, nodup_links e side _, ?_⟩
    intro a ha b hb hab
    obtain ⟨e', he', hl⟩ := (h.mem a).1 ha
    -- A link names its expression, so a link of `e` is none of the sequence.
    have : e' = e := by rw [← (mem_links.1 hl).1, hab, (mem_links.1 hb).1]
    exact he (this ▸ he')
  mem := by
    intro l
    rw [mem_append, h.mem]
    constructor
    · rintro (⟨x, hx, hl⟩ | hl)
      · exact ⟨x, (horder x).2 (.inr hx), hl⟩
      · exact ⟨e, (horder e).2 (.inl rfl), hl⟩
    · rintro ⟨x, hx, hl⟩
      obtain rfl | hx := (horder x).1 hx
      · exact .inr hl
      · exact .inl ⟨x, hx, hl⟩

/-- The links of an expression that leaves the sequence. -/
theorem drop (horder : ∀ x, x ∈ order' ↔ x ≠ e ∧ x ∈ order) :
    Indexes side order' operands (ls.filter fun l => !(links e side (operands e)).contains l) where
  nodup := h.nodup.filter _
  mem := by
    intro l
    rw [mem_filter, h.mem]
    constructor
    · rintro ⟨⟨x, hx, hl⟩, hnot⟩
      have hne : x ≠ e := by
        rintro rfl
        simp [hl] at hnot
      exact ⟨x, (horder x).2 ⟨hne, hx⟩, hl⟩
    · rintro ⟨x, hx, hl⟩
      obtain ⟨hne, hx⟩ := (horder x).1 hx
      refine ⟨⟨x, hx, hl⟩, ?_⟩
      have : l ∉ links e side (operands e) := by
        intro hl'
        exact hne ((mem_links.1 hl).1.symm.trans (mem_links.1 hl').1)
      simpa using this

/-- The link of an operand that is replaced. -/
theorem rewire (he : e ∈ order) {i : Nat} {old new : Tensor}
    (hold : (operands e)[i]? = some old) (hself : operands' e = (operands e).set i new)
    (hother : ∀ x, x ≠ e → operands' x = operands x) :
    Indexes side order operands'
      (ls.filter (· != { tensor := old.id, port := { expr := e, side, index := i } }) ++
        [{ tensor := new.id, port := { expr := e, side, index := i } }]) := by
  -- Whatever else the port may have been linked to, it was only linked to `old`.
  have hport : ∀ l ∈ ls, l.port = { expr := e, side, index := i } → l.tensor = old.id := by
    intro l hl hp
    obtain ⟨x, -, hx⟩ := (h.mem l).1 hl
    obtain ⟨hxe, -, t, ht, htid⟩ := mem_links.1 hx
    rw [hp] at hxe ht
    rw [← hxe, hold] at ht
    rw [htid, Option.some.inj ht]
  constructor
  · refine nodup_append.2 ⟨h.nodup.filter _, nodup_singleton _, ?_⟩
    intro a ha b hb hab
    rw [mem_singleton.1 hb] at hab
    obtain ⟨hmem, hne⟩ := mem_filter.1 ha
    have htensor : new.id = old.id := by
      have := hport a hmem (by rw [hab])
      rwa [hab] at this
    rw [hab, htensor, bne_self_eq_false] at hne
    cases hne
  · intro l
    have hlinks : l ∈ links e side (operands' e) ↔ _ := hself ▸ mem_links_set hold
    rw [mem_append, mem_filter, h.mem, mem_singleton, bne_iff_ne]
    constructor
    · rintro (⟨⟨x, hx, hl⟩, hne⟩ | rfl)
      · by_cases hxe : x = e
        · subst hxe
          exact ⟨x, hx, hlinks.2 (.inl ⟨hl, hne⟩)⟩
        · exact ⟨x, hx, by rwa [hother x hxe]⟩
      · exact ⟨e, he, hlinks.2 (.inr rfl)⟩
    · rintro ⟨x, hx, hl⟩
      by_cases hxe : x = e
      · subst hxe
        exact (hlinks.1 hl).imp_left fun h => ⟨⟨x, hx, h.1⟩, h.2⟩
      · rw [hother x hxe] at hl
        refine .inl ⟨⟨x, hx, hl⟩, ?_⟩
        rintro rfl
        exact hxe (mem_links.1 hl).1.symm

end Indexes

/-! ## Exact kernels -/

namespace Kernel

/-- Every expression stands once in the sequence at most and knows its number, and the index is that
    of the sequence. -/
structure Exact (k : Kernel) : Prop where
  nodup : k.order.Nodup
  made : ∀ e ∈ k.order, e < k.exprs.size
  numbered : ∀ e < k.exprs.size, (k.expr e).id = e
  consumed : Indexes .input k.order (fun e => (k.expr e).inputs) k.consumed
  produced : Indexes .output k.order (fun e => (k.expr e).outputs) k.produced

theorem Exact.empty (config : Config) : ({ config } : Kernel).Exact where
  nodup := nodup_nil
  made := by simp
  numbered := by simp
  consumed := ⟨nodup_nil, by simp⟩
  produced := ⟨nodup_nil, by simp⟩

/-- The second kernel differs from the first in nothing that the sequence and the index show:
    expressions may be new or changed in anything but their numbers and operands. -/
structure Beside (k k' : Kernel) : Prop where
  order : k'.order = k.order
  consumed : k'.consumed = k.consumed
  produced : k'.produced = k.produced
  size : k.exprs.size ≤ k'.exprs.size
  old : ∀ e < k.exprs.size,
    (k'.expr e).id = (k.expr e).id ∧ (k'.expr e).inputs = (k.expr e).inputs ∧ (k'.expr e).outputs = (k.expr e).outputs
  new : ∀ e, k.exprs.size ≤ e → e < k'.exprs.size → (k'.expr e).id = e

theorem Beside.refl (k : Kernel) : k.Beside k where
  order := rfl
  consumed := rfl
  produced := rfl
  size := Nat.le_refl _
  old _ _ := ⟨rfl, rfl, rfl⟩
  new _ h h' := absurd h' (Nat.not_lt.2 h)

/-- Making an expression under its number. -/
theorem Beside.push (h : k.Beside k') {x : Expr} (hid : x.id = k'.exprs.size) :
    k.Beside { k' with exprs := k'.exprs.push x } := by
  have hsize : (k'.exprs.push x).size = k'.exprs.size + 1 := Array.size_push x
  refine ⟨h.order, h.consumed, h.produced, by rw [hsize]; exact Nat.le_succ_of_le h.size, ?_, ?_⟩
  · intro e he
    rw [expr_push, if_neg (Nat.ne_of_lt (Nat.lt_of_lt_of_le he h.size))]
    exact h.old e he
  · intro e he hlt
    rw [hsize] at hlt
    rw [expr_push]
    split
    · next heq => rw [hid, heq]
    · next hne => exact h.new e he (Nat.lt_of_le_of_ne (Nat.lt_succ_iff.1 hlt) hne)

/-- Changing an expression in anything but its number and its operands. -/
theorem Beside.modify (h : k.Beside k') {f : Expr → Expr}
    (hf : (f (k'.expr e)).id = (k'.expr e).id ∧ (f (k'.expr e)).inputs = (k'.expr e).inputs ∧
      (f (k'.expr e)).outputs = (k'.expr e).outputs) : k.Beside { k' with exprs := k'.exprs.modify e f } := by
  have hsize : (k'.exprs.modify e f).size = k'.exprs.size := Array.size_modify
  refine ⟨h.order, h.consumed, h.produced, by rw [hsize]; exact h.size, ?_, ?_⟩
  · intro i hi
    rw [field_modify Expr.id hf.1, field_modify Expr.inputs hf.2.1, field_modify Expr.outputs hf.2.2]
    exact h.old i hi
  · intro i hi hlt
    rw [hsize] at hlt
    rw [field_modify Expr.id hf.1]
    exact h.new i hi hlt

theorem Exact.beside (h : k.Exact) (hk : k.Beside k') : k'.Exact where
  nodup := hk.order ▸ h.nodup
  made := by
    intro e he
    rw [hk.order] at he
    exact Nat.lt_of_lt_of_le (h.made e he) hk.size
  numbered := by
    intro e he
    by_cases hlt : e < k.exprs.size
    · rw [(hk.old e hlt).1, h.numbered e hlt]
    · exact hk.new e (Nat.not_lt.1 hlt) he
  consumed := by
    rw [hk.consumed, hk.order]
    exact h.consumed.congr (fun _ => Iff.rfl) fun e he => (hk.old e (h.made e he)).2.1
  produced := by
    rw [hk.produced, hk.order]
    exact h.produced.congr (fun _ => Iff.rfl) fun e he => (hk.old e (h.made e he)).2.2

end Kernel

/-! ### Calls that leave the sequence alone -/

namespace Edit

open Kernel

theorem beside_newTensor (t : TensorType) : Keeps (Beside k) (newTensor t) := by
  intro k' h
  exact ⟨h.order, h.consumed, h.produced, h.size, h.old, h.new⟩

theorem beside_addLoop (l : LoopInfo) : Keeps (Beside k) (addLoop l) := by
  intro k' h
  exact ⟨h.order, h.consumed, h.produced, h.size, h.old, h.new⟩

theorem beside_addExpr {make : ExprId → Expr} (hid : ∀ id, (make id).id = id) :
    Keeps (Beside k) (addExpr make) :=
  fun _ h => h.push (hid _)

theorem beside_newExpr (kind : OpKind) (op : String) (inputs outputs : List Tensor)
    (depth : Amount) :
    Keeps (Beside k) (newExpr kind op inputs outputs depth) :=
  .bind (keeps_ask _) fun _ => beside_addExpr fun _ => rfl

theorem beside_modifyExpr {f : Expr → Expr}
    (hf : ∀ x, (f x).id = x.id ∧ (f x).inputs = x.inputs ∧ (f x).outputs = x.outputs) :
    Keeps (Beside k) (modifyExpr e f) :=
  fun _ h => h.modify (hf _)

theorem beside_setLoopId (e : ExprId) (id : LoopId) (depth : Amount) :
    Keeps (Beside k) (setLoopId e id depth) := by
  intro k' h
  unfold setLoopId updateExpr
  cases hx : (k'.expr e).withLoopId id depth with
  | error f =>
    rw [bind_run_error (ask_run_error hx)]
    exact h
  | ok x =>
    rw [bind_run_ok (ask_run_ok hx)]
    refine h.modify ?_
    unfold Expr.withLoopId at hx
    split at hx
    · cases hx
      exact ⟨rfl, rfl, rfl⟩
    · cases hx

theorem beside_markLoop (start stop : Option ExprId) (depth workAmount increment dim : Amount) :
    Keeps (Beside k) (markLoop start stop depth workAmount increment dim) := by
  refine .get_bind fun k' _ => ?_
  cases k'.range? start stop with
  | none => exact .throw _
  | some range =>
    exact .bind (beside_addLoop _) fun id => .bind (.forM (fun e => beside_setLoopId e id depth) range) fun _ => .pure _

theorem beside_copyRange (start stop : Option ExprId) : Keeps (Beside k) (copyRange start stop) := by
  refine .get_bind fun k' _ => ?_
  cases k'.range? start stop with
  | none => exact .throw _
  | some range =>
    refine .bind (.foldlM (fun done t => ?_) _ []) fun tensors => ?_
    · exact .ite (.pure _) (.bind (beside_newTensor _) fun _ => .pure _)
    · exact .bind (.mapM fun x _ => .bind (beside_addExpr fun _ => rfl) fun _ => .pure _) fun _ => .pure _

theorem beside_copyLoops (c : RangeCopy) (ids : List LoopId) :
    Keeps (Beside k) (copyLoops c ids) := by
  refine .bind (.foldlM (fun done id => ?_) ids []) fun mapping => ?_
  · exact .bind (keeps_ask _) fun _ => .bind (beside_addLoop _) fun _ => .pure _
  · have hretag : ∀ e, Keeps (Beside k) (modifyExpr e (retagged mapping)) := fun _ =>
      beside_modifyExpr fun _ => ⟨rfl, rfl, rfl⟩
    exact .bind (.forM hretag c.copies) fun _ => .pure _

end Edit

/-! ### Calls that change the sequence -/

namespace Kernel.Exact

open Edit

theorem mem_place {x : ExprId} : x ∈ place e mark xs ↔ x = e ∨ x ∈ xs := by
  cases mark with
  | none =>
    rw [place, mem_append, mem_singleton]
    exact or_comm
  | some m => exact mem_insertAt

theorem attached_iff : k.attached e = true ↔ e ∈ k.order := by
  rw [attached, contains_iff_mem]

theorem of_insertBefore_ok (hrun : Edit.insertBefore e mark k = .ok () k') :
    e ∉ k.order ∧ k' = placed e mark k ∧ ∀ m, mark = some m → m ∈ k.order := by
  rw [insertBefore_run] at hrun
  split at hrun
  · cases hrun
  · next hnot =>
      refine ⟨fun hmem => hnot (attached_iff.2 hmem), ?_⟩
      cases mark with
      | none =>
        cases hrun
        exact ⟨rfl, fun _ hm => by cases hm⟩
      | some m =>
        simp only at hrun
        split at hrun
        · next hm =>
            cases hrun
            exact ⟨rfl, fun _ hm' => Option.some.inj hm' ▸ attached_iff.1 hm⟩
        · cases hrun

/-- An insertion that succeeds puts one expression before the mark. -/
theorem insertBefore (h : k.Exact) (he : e < k.exprs.size)
    (hrun : Edit.insertBefore e mark k = .ok () k') :
    k'.Exact ∧ k'.order = putBefore mark [e] k.order ∧ k'.exprs = k.exprs ∧ e ∉ k.order := by
  obtain ⟨hnew, rfl, hmark⟩ := of_insertBefore_ok hrun
  refine ⟨?_, place_eq h.nodup hmark, rfl, hnew⟩
  exact {
    nodup := nodup_place mark h.nodup hnew
    made := by
      intro x hx
      obtain rfl | hx := mem_place.1 hx
      · exact he
      · exact h.made x hx
    numbered := h.numbered
    consumed := h.consumed.add hnew fun _ => mem_place
    produced := h.produced.add hnew fun _ => mem_place }

/-- A removal that succeeds leaves the others. -/
theorem remove (h : k.Exact) (hrun : Edit.remove e k = .ok () k') :
    k'.Exact ∧ k'.order = k.order.filter (· ≠ e) := by
  rw [remove_run] at hrun
  split at hrun
  · cases hrun
    have hmem : ∀ x, x ∈ k.order.erase e ↔ x ≠ e ∧ x ∈ k.order := fun x => h.nodup.mem_erase_iff
    refine ⟨?_, ?_⟩
    · exact {
        nodup := h.nodup.erase e
        made := fun x hx => h.made x ((hmem x).1 hx).2
        numbered := h.numbered
        consumed := h.consumed.drop hmem
        produced := h.produced.drop hmem }
    · show k.order.erase e = _
      rw [h.nodup.erase_eq_filter]
      exact filter_congr fun x _ => by simp [bne, beq_eq_decide]
  · cases hrun

/-- A move that succeeds takes the expression out of the list and puts it before the mark. -/
theorem move (h : k.Exact) (hrun : Edit.move e mark k = .ok () k') :
    k'.Exact ∧ k'.order = if some e = mark then k.order else putBefore mark [e] (k.order.filter (· ≠ e)) := by
  rw [move_run] at hrun
  split at hrun
  · next he =>
      split at hrun
      · next hmark =>
          cases hrun
          rw [if_pos hmark]
          exact ⟨h, rfl⟩
      · next hmark =>
          rw [if_neg hmark]
          have hnodup := h.nodup.erase e
          have hnew : e ∉ k.order.erase e := fun hmem => (h.nodup.mem_erase_iff.1 hmem).1 rfl
          have hmoved : k' = { k with order := place e mark (k.order.erase e) } ∧
              ∀ m ∈ mark, m ∈ k.order.erase e := by
            cases mark with
            | none =>
              cases hrun
              exact ⟨rfl, by simp⟩
            | some m =>
              simp only at hrun
              split at hrun
              · next hm =>
                  cases hrun
                  refine ⟨rfl, ?_⟩
                  rintro m' ⟨⟩
                  exact contains_iff_mem.1 hm
              · cases hrun
          obtain ⟨rfl, hmem⟩ := hmoved
          have hsame : ∀ x, x ∈ place e mark (k.order.erase e) ↔ x ∈ k.order := by
            intro x
            rw [mem_place, h.nodup.mem_erase_iff]
            by_cases hx : x = e
            · subst hx
              simpa using attached_iff.1 he
            · simp [hx]
          refine ⟨?_, ?_⟩
          · exact {
              nodup := nodup_place mark hnodup hnew
              made := fun x hx => h.made x ((hsame x).1 hx)
              numbered := h.numbered
              consumed := h.consumed.congr hsame fun _ _ => rfl
              produced := h.produced.congr hsame fun _ _ => rfl }
          · show place e mark (k.order.erase e) = _
            rw [place_eq hnodup hmem, h.nodup.erase_eq_filter]
            congr 1
            exact filter_congr fun x _ => by simp [bne, beq_eq_decide]
  · cases hrun

/-- An insertion behind a mark of the sequence. -/
theorem insertAfter (h : k.Exact) (he : e < k.exprs.size) (hm : m ∈ k.order)
    (hrun : Edit.insertAfter e m k = .ok () k') :
    k'.Exact ∧ k'.order = k.order.flatMap fun x => if x = m then [x, e] else [x] := by
  obtain ⟨pre, post, horder⟩ := append_of_mem hm
  have hnodup := h.nodup
  rw [horder] at hnodup
  have hnext : k.next? m = post.head? := by rw [next?, horder, behind_append (not_mem_of_nodup hnodup)]
  replace hrun : Edit.insertBefore e (k.next? m) k = .ok () k' := hrun
  rw [hnext] at hrun
  obtain ⟨hexact, -, -, hnew⟩ := h.insertBefore he hrun
  refine ⟨hexact, ?_⟩
  have hplace : k'.order = place e post.head? k.order := by
    rw [(of_insertBefore_ok hrun).2.1]
    rfl
  have hsplit : pre ++ m :: post = (pre ++ [m]) ++ post := by simp
  rw [hplace, horder, flatMap_append_cons hnodup, hsplit, Lists.place_append (hsplit ▸ hnodup)]
  simp

/-- An input that is rewired changes in the index too. -/
theorem replaceInput (h : k.Exact) {i : Int} {t : Tensor}
    (hrun : Edit.replaceInput e i t k = .ok () k') :
    k'.Exact ∧ k'.order = k.order := by
  rw [replaceInput_run] at hrun
  split at hrun
  · next he =>
      have hmem := attached_iff.1 he
      cases hold : (k.expr e).input i with
      | error f =>
        rw [hold] at hrun
        cases hrun
      | ok old =>
        rw [hold] at hrun
        cases hrun
        obtain ⟨n, rfl, hn⟩ := of_fetch_ok hold
        refine ⟨?_, rfl⟩
        have hexpr : ∀ x, ({ k with exprs := k.exprs.modify e fun x =>
            { x with inputs := x.inputs.set (n : Int).toNat t } } : Kernel).expr x =
              if x = e ∧ x < k.exprs.size then { k.expr x with inputs := (k.expr x).inputs.set n t }
              else k.expr x := by
          intro x
          rw [expr_modify]
          rfl
        exact {
          nodup := h.nodup
          made := by
            intro x hx
            show x < (k.exprs.modify _ _).size
            rw [Array.size_modify]
            exact h.made x hx
          numbered := by
            intro x hx
            replace hx : x < (k.exprs.modify _ _).size := hx
            rw [Array.size_modify] at hx
            exact (field_modify Expr.id rfl x).trans (h.numbered x hx)
          consumed := by
            refine h.consumed.rewire hmem hn ?_ ?_
            · refine (congrArg Expr.inputs (hexpr e)).trans ?_
              rw [if_pos ⟨rfl, h.made e hmem⟩]
              rfl
            · intro x hx
              refine (congrArg Expr.inputs (hexpr x)).trans ?_
              rw [if_neg fun hc => hx hc.1]
          produced := by
            exact h.produced.congr (fun _ => Iff.rfl) fun x _ => field_modify Expr.outputs rfl x }
  · cases hrun

/-- Copies that are inserted stand before the mark in their order. -/
theorem insertCopy (h : k.Exact) {es : List ExprId} (hes : ∀ e ∈ es, e < k.exprs.size)
    (hmark : ∀ m ∈ mark, m ∈ k.order) (hrun : (es.forM fun e => Edit.insertBefore e mark) k = .ok () k') :
    k'.Exact ∧ k'.order = putBefore mark es k.order := by
  induction es generalizing k with
  | nil =>
    cases hrun
    refine ⟨h, ?_⟩
    cases mark with
    | none => exact (append_nil _).symm
    | some m =>
      obtain ⟨pre, post, horder⟩ := append_of_mem (hmark m rfl)
      have hnodup := h.nodup
      rw [horder] at hnodup ⊢
      exact (flatMap_append_cons (f := fun x => [] ++ [x]) hnodup).symm
  | cons e es ih =>
    replace hrun : (Edit.insertBefore e mark >>= fun _ => es.forM fun e => Edit.insertBefore e mark) k =
      .ok () k' := hrun
    obtain ⟨_, k1, hfirst, hrest⟩ := of_bind_run_ok hrun
    obtain ⟨h1, horder, hexprs, hnew⟩ := h.insertBefore (hes e (mem_cons_self ..)) hfirst
    have hmark1 : ∀ m ∈ mark, m ∈ k1.order := by
      intro m hm
      rw [horder, ← place_eq h.nodup hmark]
      exact mem_place.2 (.inr (hmark m hm))
    have hne : some e ≠ mark := by
      intro heq
      exact hnew (hmark e heq.symm)
    obtain ⟨h', horder'⟩ := ih h1 (fun x hx => hexprs ▸ hes x (mem_cons_of_mem _ hx)) hmark1 hrest
    exact ⟨h', by rw [horder', horder, putBefore_cons hne]⟩

end Kernel.Exact

/-- A call that succeeds keeps the index exact and does to the sequence what it does to a plain
    list. -/
theorem EditCall.exact_run (h : k.Exact) {c : EditCall} (hknown : c.known k = true)
    (hrun : c.run k = .ok () k') :
    k'.Exact ∧ k'.order = c.onList k.order := by
  have beside : ∀ {α : Type} {step : Edit α}, Keeps k.Beside step → (do let _ ← step : Edit Unit) k = .ok () k' →
      k'.Exact ∧ k'.order = k.order := by
    intro α step hstep hrun
    obtain ⟨a, k1, hfirst, hlast⟩ := of_bind_run_ok hrun
    cases hlast
    have hk := hstep k (.refl k)
    rw [hfirst] at hk
    exact ⟨h.beside hk, hk.order⟩
  have attached : ∀ {mark : Option ExprId}, mark.all k.attached = true → ∀ m ∈ mark, m ∈ k.order := by
    rintro _ hall m rfl
    exact Kernel.Exact.attached_iff.1 hall
  cases c with
  | newTensor t => exact beside (Edit.beside_newTensor t) hrun
  | newExpr kind op inputs outputs depth =>
    exact beside (Edit.beside_newExpr kind op inputs outputs depth) hrun
  | append e =>
    obtain ⟨hk, horder, -⟩ := h.insertBefore (by simpa [known] using hknown) hrun
    exact ⟨hk, horder⟩
  | insertBefore e mark =>
    simp only [known, Bool.and_eq_true, decide_eq_true_eq] at hknown
    obtain ⟨hk, horder, -⟩ := h.insertBefore hknown.1 hrun
    exact ⟨hk, horder⟩
  | insertAfter e mark =>
    simp only [known, Bool.and_eq_true, decide_eq_true_eq] at hknown
    exact h.insertAfter hknown.1 (Kernel.Exact.attached_iff.1 hknown.2) hrun
  | move e mark => exact h.move hrun
  | remove e => exact h.remove hrun
  | replaceInput e i t => exact h.replaceInput hrun
  | markLoop start stop depth workAmount increment dim =>
    exact beside (Edit.beside_markLoop start stop depth workAmount increment dim) hrun
  | copyRange start stop => exact beside (Edit.beside_copyRange start stop) hrun
  | copyLoops c ids => exact beside (Edit.beside_copyLoops c ids) hrun
  | insertCopy c mark =>
    simp only [known, Bool.and_eq_true, all_eq_true, decide_eq_true_eq] at hknown
    exact h.insertCopy hknown.1 (attached hknown.2) hrun

/-- What every call keeps, all calls of a history keep. -/
theorem Kernel.Exact.edited (h : k.Exact) {calls : List EditCall} (hk : k.edited calls = some k') :
    k'.Exact := by
  induction calls generalizing k with
  | nil =>
    cases hk
    exact h
  | cons c calls ih =>
    rw [Kernel.edited] at hk
    split at hk
    · next hknown =>
        split at hk
        · next k1 hrun => exact ih (EditCall.exact_run h hknown hrun).1 hk
        · cases hk
    · cases hk

/-! ## Calls that fail

Most calls check before they change anything. Moving and marking do not. -/

namespace EditCall

/-- Making a load and its source, and appending only the source. -/
def halfBuilt : List EditCall :=
  let a : Tensor := { TensorType.planar .float32 [4] with id := 0 }
  [.newTensor a.toTensorType, .newExpr .parameter "Parameter" [] [a] 1, .newExpr .load "Load" [a] [] 1, .append 0]

/-- A move to a mark outside the sequence fails and takes the expression out of the sequence;
    marking a level that the expressions do not have fails and leaves a loop in the table. -/
theorem run_failed_halfway :
    ∃ k, ({} : Kernel).edited halfBuilt = some k ∧
      (∃ f k', (move 0 (some 1)).run k = .error f k' ∧ k.order = [0] ∧ k'.order = []) ∧
      ∃ f k', (markLoop (some 0) none 3 4 4 0).run k = .error f k' ∧ k.loops.size = 0 ∧ k'.loops.size = 1 := by
  have hmove : (({} : Kernel).edited halfBuilt).any (fun k => match (move 0 (some 1)).run k with
      | .error _ k' => k.order = [0] ∧ k'.order = []
      | .ok _ _ => false) = true := by decide +kernel
  have hmark : (({} : Kernel).edited halfBuilt).any (fun k => match (markLoop (some 0) none 3 4 4 0).run k with
      | .error _ k' => k.loops.size = 0 ∧ k'.loops.size = 1
      | .ok _ _ => false) = true := by decide +kernel
  obtain ⟨k, hk, hmove⟩ := (Option.any_eq_true _ _).1 hmove
  obtain ⟨k₁, hk₁, hmark⟩ := (Option.any_eq_true _ _).1 hmark
  obtain rfl : k = k₁ := Option.some.inj (hk.symm.trans hk₁)
  refine ⟨k, hk, ?_, ?_⟩
  · split at hmove
    · next f k' hfailed => exact ⟨f, k', hfailed, of_decide_eq_true hmove⟩
    · cases hmove
  · split at hmark
    · next f k' hfailed => exact ⟨f, k', hfailed, of_decide_eq_true hmark⟩
    · cases hmark

end EditCall

end KernelLoops
