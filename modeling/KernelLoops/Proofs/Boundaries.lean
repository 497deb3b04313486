import KernelLoops.Proofs.Building
import KernelLoops.Proofs.TailFrames

set_option autoImplicit false

/-! # Boundaries of marked loops

A loop gets its boundary when it is marked, and building goes on. Its entries stay exact: they are
the inputs whose tensor nothing produces or something outside the loop came to produce first. Its
exits are the outputs that nothing in the loop uses and those that something before the loop uses.
An output that the loop itself uses is not among them, whatever comes to use it behind the loop. -/

namespace KernelLoops

open List

variable {k k' : Kernel} {b : Builder} {info : LoopInfo} {pre ys : List Expr} {y : Expr}
  {id : LoopId} {port : Port}
  {t : TensorId} {level : Nat}

namespace Kernel

/-- The part of the sequence before a loop. -/
def beforeLoop (k : Kernel) (id : LoopId) : List ExprId :=
  k.order.takeWhile fun e => !(k.expr e).inLoop id

/-- Nothing in the loop came to produce the tensor first. -/
def Imports (k : Kernel) (id : LoopId) (t : TensorId) : Prop :=
  ∀ p, (k.producers t).head? = some p → (k.expr p.expr).inLoop id = false

/-- Nothing in the loop consumes the tensor, or something before the loop does. -/
def Exports (k : Kernel) (id : LoopId) (t : TensorId) : Prop :=
  (∀ p ∈ k.consumers t, (k.expr p.expr).inLoop id = false) ∨ ∃ p ∈ k.consumers t, p.expr ∈ k.beforeLoop id

/-- The boundary of a loop: its entries are the inputs of its expressions that come from outside,
    and its exits are the outputs that it does not use itself or that are used before it. -/
structure Boundary (k : Kernel) (id : LoopId) (info : LoopInfo) : Prop where
  entries : ∀ port, port ∈ info.entries ↔ port.side = .input ∧ port.expr ∈ k.order ∧
    (k.expr port.expr).inLoop id = true ∧
      ∃ t, (k.expr port.expr).inputs[port.index]? = some t ∧ k.Imports id t.id
  exits : ∀ port, port ∈ info.exits ↔ port.side = .output ∧ port.expr ∈ k.order ∧
    (k.expr port.expr).inLoop id = true ∧
      ∃ t, (k.expr port.expr).outputs[port.index]? = some t ∧ k.Exports id t.id

/-! ## Building on -/

/-- What the first kernel lists the second lists too, with the same operands, in the loop or not as
    before. What has come behind it is not in the loop. -/
structure Follows (id : LoopId) (k k' : Kernel) : Prop where
  order : k.order <+: k'.order
  produced : k.produced <+: k'.produced
  inputs : ∀ e ∈ k.order, (k'.expr e).inputs = (k.expr e).inputs
  outputs : ∀ e ∈ k.order, (k'.expr e).outputs = (k.expr e).outputs
  inLoop : ∀ e ∈ k.order, (k'.expr e).inLoop id = (k.expr e).inLoop id
  outside : ∀ e ∈ k'.order, e ∉ k.order → (k'.expr e).inLoop id = false

theorem Follows.refl (k : Kernel) : Follows id k k :=
  ⟨prefix_rfl, prefix_rfl, fun _ _ => rfl, fun _ _ => rfl, fun _ _ => rfl, fun _ h h' => absurd h h'⟩

theorem Continues.follows (h : k.Continues k') (hid : id ≠ LoopId.null) : Follows id k k' where
  order := h.order
  produced := h.produced
  inputs := h.inputs
  outputs := h.outputs
  inLoop e he := by rw [Expr.inLoop, Expr.inLoop, h.loopIds e he]
  outside e he hnew := by
    rw [Expr.inLoop, Bool.eq_false_iff, Ne, contains_iff_mem]
    exact fun hmem => hid (h.blank e he hnew id hmem)

/-- An expression of the list is one of the sequence. -/
theorem Lists.exists_mem_iff (h : k.Lists k.sequence) {e : ExprId} {P : Expr → Prop} :
    (∃ x ∈ k.sequence, e = x.id ∧ P x) ↔ e ∈ k.order ∧ P (k.expr e) := by
  constructor
  · rintro ⟨x, hx, rfl, hP⟩
    exact ⟨h.mem_order.2 ⟨x, hx, rfl⟩, (h.read x hx).symm ▸ hP⟩
  · rintro ⟨he, hP⟩
    obtain ⟨x, hx, rfl⟩ := h.mem_order.1 he
    exact ⟨x, hx, rfl, h.read x hx ▸ hP⟩

theorem Lists.mem_consumers_iff (h : k.Lists k.sequence) {p : Port} :
    p ∈ k.consumers t ↔
      p.expr ∈ k.order ∧ p.side = .input ∧ ∃ u, (k.expr p.expr).inputs[p.index]? = some u ∧ t = u.id := by
  rw [h.mem_consumers, h.exists_mem_iff]

theorem Lists.mem_producers_iff (h : k.Lists k.sequence) {p : Port} :
    p ∈ k.producers t ↔
      p.expr ∈ k.order ∧ p.side = .output ∧ ∃ u, (k.expr p.expr).outputs[p.index]? = some u ∧ t = u.id := by
  rw [h.mem_producers, h.exists_mem_iff]

namespace Follows

variable (h : Follows id k k')

include h

theorem covers_iff {e : ExprId} :
    e ∈ k'.order ∧ (k'.expr e).inLoop id = true ↔ e ∈ k.order ∧ (k.expr e).inLoop id = true := by
  constructor
  · rintro ⟨he, hin⟩
    by_cases hold : e ∈ k.order
    · exact ⟨hold, h.inLoop e hold ▸ hin⟩
    · exact absurd hin (by rw [h.outside e he hold]; exact Bool.false_ne_true)
  · rintro ⟨he, hin⟩
    exact ⟨h.order.subset he, (h.inLoop e he).trans hin⟩

/-- What comes from outside still does. A producer that has come since is outside too. -/
theorem imports_iff (hk : k.Lists k.sequence) (hk' : k'.Lists k'.sequence) : k'.Imports id t ↔
    k.Imports id t := by
  obtain ⟨more, hmore⟩ := Framed.producers_of_prefix h.produced t
  have hold : ∀ p ∈ k.producers t, p.expr ∈ k.order := fun p hp => (hk.mem_producers_iff.1 hp).1
  unfold Imports
  cases hmakers : k.producers t with
  | cons p rest =>
    rw [← hmore, hmakers]
    have hp := h.inLoop p.expr (hold p (by simp [hmakers]))
    simp [hp]
  | nil =>
    refine ⟨fun _ p hp => absurd hp (by simp), fun _ p hp => ?_⟩
    obtain ⟨he, hside, hu⟩ := hk'.mem_producers_iff.1 (mem_of_head? hp)
    refine h.outside p.expr he fun hin => ?_
    rw [h.outputs p.expr hin] at hu
    have hmem := hk.mem_producers_iff.2 ⟨hin, hside, hu⟩
    rw [hmakers] at hmem
    cases hmem

theorem mem_consumers_iff (hk : k.Lists k.sequence) (hk' : k'.Lists k'.sequence) {p : Port}
    (hp : p.expr ∈ k.order) : p ∈ k'.consumers t ↔ p ∈ k.consumers t := by
  rw [hk.mem_consumers_iff, hk'.mem_consumers_iff, h.inputs p.expr hp]
  simp [hp, h.order.subset hp]

theorem beforeLoop_eq {e : ExprId} (he : e ∈ k.order) (hin : (k.expr e).inLoop id = true) :
    k'.beforeLoop id = k.beforeLoop id := by
  obtain ⟨more, hmore⟩ := h.order
  have hcongr : ∀ xs : List ExprId, (∀ e ∈ xs, (k'.expr e).inLoop id = (k.expr e).inLoop id) →
      (∃ e ∈ xs, (k.expr e).inLoop id = true) → ((xs ++ more).takeWhile fun e => !(k'.expr e).inLoop id) =
        xs.takeWhile fun e => !(k.expr e).inLoop id := by
    intro xs hsame hsome
    induction xs with
    | nil => simp at hsome
    | cons x xs ih =>
      rw [cons_append, takeWhile_cons, takeWhile_cons, hsame x mem_cons_self]
      cases hx : (k.expr x).inLoop id with
      | true => rfl
      | false =>
        simp only [mem_cons, exists_eq_or_imp, hx, Bool.false_eq_true, false_or] at hsome
        simp only [Bool.not_false, if_true]
        rw [ih (fun e he => hsame e (mem_cons_of_mem x he)) hsome]
  rw [beforeLoop, ← hmore]
  exact hcongr k.order h.inLoop ⟨e, he, hin⟩

theorem exports_iff (hk : k.Lists k.sequence) (hk' : k'.Lists k'.sequence) {e : ExprId}
    (he : e ∈ k.order) (hin : (k.expr e).inLoop id = true) : k'.Exports id t ↔ k.Exports id t := by
  have hearly : ∀ e ∈ k.beforeLoop id, e ∈ k.order := fun _ h => takeWhile_subset _ h
  unfold Exports
  rw [h.beforeLoop_eq he hin]
  refine or_congr ⟨fun hout p hp => ?_, fun hout p hp => ?_⟩ ⟨?_, ?_⟩
  · have hold := (hk.mem_consumers_iff.1 hp).1
    rw [← h.inLoop p.expr hold]
    exact hout p ((h.mem_consumers_iff hk hk' hold).2 hp)
  · by_cases hold : p.expr ∈ k.order
    · rw [h.inLoop p.expr hold]
      exact hout p ((h.mem_consumers_iff hk hk' hold).1 hp)
    · exact h.outside p.expr (hk'.mem_consumers_iff.1 hp).1 hold
  · rintro ⟨p, hp, hbefore⟩
    exact ⟨p, (h.mem_consumers_iff hk hk' (hearly _ hbefore)).1 hp, hbefore⟩
  · rintro ⟨p, hp, hbefore⟩
    exact ⟨p, (h.mem_consumers_iff hk hk' (hearly _ hbefore)).2 hp, hbefore⟩

end Follows

/-- A boundary stays what it is while building goes on elsewhere. -/
theorem Boundary.follow (hb : k.Boundary id info) (h : Follows id k k') (hk : k.Lists k.sequence)
    (hk' : k'.Lists k'.sequence) : k'.Boundary id info := by
  constructor
  · intro port
    rw [hb.entries, ← and_assoc (a := port.expr ∈ k.order), ← and_assoc (a := port.expr ∈ k'.order), h.covers_iff]
    refine and_congr_right fun _ => and_congr_right fun hin => ?_
    simp only [h.inputs _ hin.1, h.imports_iff hk hk']
  · intro port
    rw [hb.exits, ← and_assoc (a := port.expr ∈ k.order), ← and_assoc (a := port.expr ∈ k'.order), h.covers_iff]
    refine and_congr_right fun _ => and_congr_right fun hin => ?_
    simp only [h.outputs _ hin.1, h.exports_iff hk hk' hin.1 hin.2]

/-! ## Marking a loop -/

theorem mem_entriesOf {range : List ExprId} : port ∈ k.entriesOf range ↔ port.side = .input ∧
    port.expr ∈ range ∧
    ∃ t, (k.expr port.expr).inputs[port.index]? = some t ∧ ∀ p, (k.producers t.id).head? = some p → p.expr ∉ range := by
  obtain ⟨e, side, index⟩ := port
  simp only [entriesOf, mem_flatMap, mem_filterMap, Prod.exists, mem_zipIdx_iff_getElem?]
  constructor
  · rintro ⟨x, hx, t, i, ht, hport⟩
    cases hmaker : (k.producers t.id).head? with
    | none =>
      rw [hmaker] at hport
      cases hport
      exact ⟨rfl, hx, t, ht, by simp [hmaker]⟩
    | some p =>
      rw [hmaker] at hport
      obtain ⟨hout, hport⟩ := Option.ite_none_left_eq_some.1 hport
      cases hport
      exact ⟨rfl, hx, t, ht, by simpa [hmaker] using hout⟩
  · rintro ⟨rfl, hx, t, ht, hout⟩
    refine ⟨e, hx, t, index, ht, ?_⟩
    cases hmaker : (k.producers t.id).head? with
    | none => rfl
    | some p => exact if_neg (by simpa using hout p hmaker)

theorem mem_exitsOf {range : List ExprId} : port ∈ k.exitsOf range ↔ port.side = .output ∧
    port.expr ∈ range ∧
    ∃ t, (k.expr port.expr).outputs[port.index]? = some t ∧
      (k.consumers t.id = [] ∧ (k.expr port.expr).kind.isMarker = false ∨ ∃ p ∈ k.consumers t.id, p.expr ∉ range) := by
  obtain ⟨e, side, index⟩ := port
  simp only [exitsOf, mem_flatMap, mem_filterMap, Prod.exists, mem_zipIdx_iff_getElem?,
    Option.ite_none_right_eq_some, Option.some.injEq, Port.mk.injEq, Bool.or_eq_true, Bool.and_eq_true,
    List.isEmpty_iff, Bool.not_eq_true', any_eq_true, contains_eq_mem, decide_eq_false_iff_not]
  constructor
  · rintro ⟨x, hx, t, i, ht, hused, rfl, rfl, rfl⟩
    exact ⟨rfl, hx, t, ht, hused⟩
  · rintro ⟨rfl, hx, t, ht, hused⟩
    exact ⟨e, hx, t, index, ht, hused, rfl, rfl, rfl⟩

theorem inLoop_tag_self {x : Expr} (hlevel : level < x.loopIds.length) :
    (x.tag level id).inLoop id = true := by
  rw [Expr.inLoop, contains_iff_mem]
  exact mem_set hlevel id

/-- Another tag takes an expression out of a loop only where it replaces the tag of that loop. -/
theorem inLoop_tag_of_ne {x : Expr} {new : LoopId} (hspared : x.loopIds[level]? ≠ some id)
    (hne : new ≠ id) :
    (x.tag level new).inLoop id = x.inLoop id := by
  rw [Bool.eq_iff_iff, inLoop_iff, inLoop_iff]
  refine exists_congr fun i => ?_
  show (x.loopIds.set level new)[i]? = some id ↔ _
  rw [getElem?_set]
  split
  · next h =>
    subst h
    split <;> simp [hne, hspared]
  · rfl

/-- The kernel `k` follows `k0`, it has the given loops, and none of the expressions `es` is in the
    loop `id` at a level. -/
structure Spares (id : LoopId) (loops : LoopTable) (k0 : Kernel) (es : List ExprId) (depth : Amount)
    (k : Kernel) :
    Prop where
  follows : Follows id k0 k
  loops : k.loops = loops
  spared : ∀ e ∈ es, 0 ≤ depth → (k.expr e).loopIds[depth.toInt.toNat]? ≠ some id

/-- Tagging one of the expressions at the level with another loop, be it possible or not. -/
theorem Spares.setLoopId {loops : LoopTable} {k0 : Kernel} {es : List ExprId} {depth : Amount}
    {new : LoopId} {e : ExprId}
    (h : Spares id loops k0 es depth k) (hne : new ≠ id) (he : e ∈ es) :
    Spares id loops k0 es depth (endState (Edit.setLoopId e new depth k)) := by
  unfold Edit.setLoopId Edit.updateExpr
  cases hx : (k.expr e).withLoopId new depth with
  | error f =>
    rw [bind_run_error (Edit.ask_run_error hx)]
    exact h
  | ok x =>
    rw [bind_run_ok (Edit.ask_run_ok hx)]
    obtain ⟨hdepth, rfl⟩ : 0 ≤ depth ∧ (k.expr e).tag depth.toInt.toNat new = x := by
      unfold Expr.withLoopId at hx
      split at hx
      · next hlevel =>
          cases hx
          rw [Bool.and_eq_true, decide_eq_true_eq] at hlevel
          exact ⟨hlevel.1, rfl⟩
      · cases hx
    let k' : Kernel := { k with exprs := k.exprs.modify e fun _ => (k.expr e).tag depth.toInt.toNat new }
    have hread (i : ExprId) : k'.expr i = k.expr i ∨ i = e ∧ k'.expr i = (k.expr e).tag depth.toInt.toNat new := by
      rw [expr_modify]
      split
      · next hi => exact .inr ⟨hi.1, rfl⟩
      · exact .inl rfl
    have hsame {α : Type} (field : Expr → α) (hfield : field ((k.expr e).tag depth.toInt.toNat new) = field (k.expr e))
        (i : ExprId) : field (k'.expr i) = field (k.expr i) := by
      exact field_modify field (f := fun _ => (k.expr e).tag depth.toInt.toNat new) hfield i
    have hin := hsame (·.inLoop id) (inLoop_tag_of_ne (h.spared e he hdepth) hne)
    refine ⟨⟨h.follows.order, h.follows.produced, fun i hi => (hsame Expr.inputs rfl i).trans (h.follows.inputs i hi),
      fun i hi => (hsame Expr.outputs rfl i).trans (h.follows.outputs i hi),
        fun i hi => (hin i).trans (h.follows.inLoop i hi),
      fun i hi hnew => (hin i).trans (h.follows.outside i hi hnew)⟩, h.loops, fun i hi _ => ?_⟩
    rcases hread i with hi' | ⟨rfl, hi'⟩
    · exact hi'.symm ▸ h.spared i hi hdepth
    · show (k'.expr i).loopIds[_]? ≠ some id
      rw [hi', Expr.tag, Expr.retag, getElem?_set_self']
      cases (k.expr i).loopIds[depth.toInt.toNat]? <;> simp [hne]

section Tagging

variable {new : LoopId} {post : List Expr} (h : k.Lists (pre ++ ys ++ post))
  (h' : k'.Lists (pre ++ ys.map (Expr.tag level new) ++ post))

include h h'

/-- Tagging a part of the list changes no more than the tags there. -/
theorem expr_tagged {e : ExprId} (he : e ∈ k.order) :
    ∃ x, x.id = e ∧ k.expr e = x ∧
      ((x ∈ pre ∨ x ∈ post) ∧ k'.expr e = x ∨ x ∈ ys ∧ k'.expr e = x.tag level new) := by
  obtain ⟨x, hx, rfl⟩ := h.mem_order.1 he
  refine ⟨x, rfl, h.read x hx, ?_⟩
  simp only [mem_append] at hx
  rcases hx with (hx | hx) | hx
  · exact .inl ⟨.inl hx, h'.read x (by simp [hx])⟩
  · exact .inr ⟨hx, h'.read (x.tag level new) (mem_append_left _ (mem_append_right _ (mem_map_of_mem hx)))⟩
  · exact .inl ⟨.inr hx, h'.read x (by simp [hx])⟩

theorem order_tagged : k'.order = k.order := by
  rw [h.order, h'.order, map_append, map_append, map_append, map_append, map_map]
  rfl

theorem operands_tagged {e : ExprId} (he : e ∈ k.order) :
    (k'.expr e).inputs = (k.expr e).inputs ∧ (k'.expr e).outputs = (k.expr e).outputs := by
  obtain ⟨x, -, hx, ⟨-, hx'⟩ | ⟨-, hx'⟩⟩ := expr_tagged h h' he <;> rw [hx, hx'] <;> exact ⟨rfl, rfl⟩

variable (hlevel : ∀ y ∈ ys, level < y.loopIds.length)
  (hnew : ∀ x ∈ k.sequence, x.inLoop new = false)

include hlevel hnew

/-- The loop that has been marked holds that part of the list. -/
theorem inLoop_tagged_iff {e : ExprId} (he : e ∈ k.order) :
    (k'.expr e).inLoop new = true ↔ e ∈ ys.map Expr.id := by
  have hnodup := h.nodup
  rw [map_append, map_append, nodup_append, nodup_append] at hnodup
  obtain ⟨x, rfl, hx, ⟨hother, hread⟩ | ⟨hin, hread⟩⟩ := expr_tagged h h' he
  · rw [hread, hnew x (hx ▸ mem_map_of_mem he)]
    refine ⟨fun h => absurd h Bool.false_ne_true, fun hmem => ?_⟩
    rcases hother with hx | hx
    · exact absurd rfl (hnodup.1.2.2 x.id (mem_map_of_mem hx) x.id hmem)
    · exact absurd rfl (hnodup.2.2 x.id (mem_append_right _ hmem) x.id (mem_map_of_mem hx))
  · rw [hread, inLoop_tag_self (hlevel x hin)]
    exact ⟨fun _ => mem_map_of_mem hin, fun _ => rfl⟩

theorem beforeLoop_tagged (hne : ys ≠ []) : k'.beforeLoop new = pre.map Expr.id := by
  have hin {e : ExprId} (he : e ∈ k.order) := inLoop_tagged_iff h h' hlevel hnew he
  have hnodup := h.nodup
  rw [map_append, map_append, nodup_append, nodup_append] at hnodup
  rw [beforeLoop, order_tagged h h', h.order, append_assoc, map_append, takeWhile_append_of_pos]
  · obtain ⟨y, rest, rfl⟩ := exists_cons_of_ne_nil hne
    have hy := (hin (show y.id ∈ k.order by simp [h.order])).2 (by simp)
    simp [hy]
  · intro e he
    have hout : (k'.expr e).inLoop new = false := by
      rw [← Bool.not_eq_true, hin (by simp [h.order, mem_map.1 he])]
      exact fun hlate => hnodup.1.2.2 _ he _ hlate rfl
    rw [hout]
    rfl

/-- When a loop is marked, all that is outside lies before it. -/
theorem exports_tagged_iff (hconsumed : k'.consumed = k.consumed) (hpost : post = [])
    (hne : ys ≠ []) :
    k'.Exports new t ↔ k.consumers t = [] ∨ ∃ p ∈ k.consumers t, p.expr ∉ ys.map Expr.id := by
  have husers : ∀ p ∈ k.consumers t, p.expr ∈ k.order := fun p hp => (h.self.mem_consumers_iff.1 hp).1
  have hnodup := h.nodup
  rw [map_append, map_append, nodup_append, nodup_append] at hnodup
  rw [Exports, beforeLoop_tagged h h' hlevel hnew hne,
    show k'.consumers t = k.consumers t by rw [consumers, consumers, hconsumed]]
  constructor
  · rintro (hall | ⟨p, hp, hearly⟩)
    · rcases eq_nil_or_concat (k.consumers t) with hnil | ⟨rest, p, hsome⟩
      · exact .inl hnil
      · have hp : p ∈ k.consumers t := by simp [hsome]
        refine .inr ⟨p, hp, fun hlate => ?_⟩
        exact absurd ((inLoop_tagged_iff h h' hlevel hnew (husers p hp)).2 hlate) (by simp [hall p hp])
    · exact .inr ⟨p, hp, fun hlate => hnodup.1.2.2 _ hearly _ hlate rfl⟩
  · rintro (hnil | ⟨p, hp, hlate⟩)
    · exact .inl (by simp [hnil])
    · have horder := husers p hp
      rw [h.order, hpost, append_nil, map_append, mem_append] at horder
      exact .inr ⟨p, hp, horder.resolve_right hlate⟩

/-- When a loop is marked, its boundary is what the data flow says. -/
theorem Boundary.of_tagged (hproduced : k'.produced = k.produced)
    (hconsumed : k'.consumed = k.consumed)
    (hpost : post = []) (hkind : ∀ y ∈ ys, y.kind.isMarker = false) (hne : ys ≠ [])
    (hentries : info.entries = k.entriesOf (ys.map Expr.id))
    (hexits : info.exits = k.exitsOf (ys.map Expr.id)) : k'.Boundary new info := by
  have hin {e : ExprId} (he : e ∈ k.order) := inLoop_tagged_iff h h' hlevel hnew he
  have hattached : ∀ e ∈ ys.map Expr.id, e ∈ k.order := fun e he => by
    rw [h.order, map_append, map_append]
    exact mem_append_left _ (mem_append_right _ he)
  have hmakers {t : TensorId} {p : Port} (hp : (k.producers t).head? = some p) : p.expr ∈ k.order :=
    (h.self.mem_producers_iff.1 (mem_of_head? hp)).1
  have hproducers (t : TensorId) : k'.producers t = k.producers t := by rw [producers, producers, hproduced]
  constructor
  · intro port
    rw [hentries, mem_entriesOf, order_tagged h h']
    refine and_congr_right fun _ => ⟨?_, ?_⟩
    · rintro ⟨hmem, t, ht, hmaker⟩
      have he := hattached _ hmem
      refine ⟨he, (hin he).2 hmem, t, (operands_tagged h h' he).1 ▸ ht, fun p hp => ?_⟩
      rw [hproducers] at hp
      rw [← Bool.not_eq_true, hin (hmakers hp)]
      exact hmaker p hp
    · rintro ⟨he, hmem, t, ht, hmaker⟩
      refine ⟨(hin he).1 hmem, t, (operands_tagged h h' he).1 ▸ ht, fun p hp => ?_⟩
      rw [← hin (hmakers hp), Bool.not_eq_true]
      exact hmaker p (by rwa [hproducers])
  · intro port
    rw [hexits, mem_exitsOf, order_tagged h h']
    refine and_congr_right fun _ => ⟨?_, ?_⟩
    · rintro ⟨hmem, t, ht, hused⟩
      have he := hattached _ hmem
      exact ⟨he, (hin he).2 hmem, t, (operands_tagged h h' he).2 ▸ ht,
        (exports_tagged_iff h h' hlevel hnew hconsumed hpost hne).2 (hused.imp_left And.left)⟩
    · rintro ⟨he, hmem, t, ht, hused⟩
      obtain ⟨y, hy, hid⟩ := mem_map.1 ((hin he).1 hmem)
      have hread : k.expr port.expr = y := hid ▸ h.read y (by simp [hy])
      exact ⟨(hin he).1 hmem, t, (operands_tagged h h' he).2 ▸ ht,
        ((exports_tagged_iff h h' hlevel hnew hconsumed hpost hne).1 hused).imp_left fun hnone =>
          ⟨hnone, hread ▸ hkind y hy⟩⟩

end Tagging

/-- What has been added since a mark is the end of the list. -/
theorem Plain.exists_sinceMark (hk : k.Plain) {m : Option ExprId} {e : ExprId}
    (hm : Build.sinceMark k m = some e) :
    ∃ pre y ys, k.Lists (pre ++ y :: ys) ∧ y.id = e ∧ k.walkFrom (some e) = (y :: ys).map Expr.id := by
  have he : e ∈ k.order := by
    cases m with
    | none => exact mem_of_head? hm
    | some m =>
      have hne : behind m k.order ≠ [] := fun hnil => by
        rw [Build.sinceMark, next?, hnil] at hm
        cases hm
      obtain ⟨pre, hpre⟩ := Tails.exists_append_behind hne
      rw [hpre]
      exact mem_append_right _ (mem_cons_of_mem m (mem_of_head? hm))
  obtain ⟨y, hy, rfl⟩ := hk.lists.mem_order.1 he
  obtain ⟨pre, ys, hsplit⟩ := append_of_mem hy
  have h := hsplit ▸ hk.lists
  exact ⟨pre, y, ys, h, rfl, by rw [walkFrom, h.behind, map_cons]⟩

/-- Every registered loop has its boundary. -/
def Bounded (k : Kernel) : Prop := ∀ id info, k.loops.get? id = some info → k.Boundary id info

/-- A registered loop is named by a number of its own. -/
theorem Plain.ne_sentinel (hk : k.Plain) (h : k.loops.get? id = some info) {id' : LoopId}
    (hs : id'.isSentinel = true) :
    id ≠ id' := by
  rintro rfl
  rw [hk.loops.isSentinel (by rw [h]; rfl)] at hs
  cases hs

/-- Nothing is tagged with the number of the next loop. -/
theorem Plain.inLoop_next (hk : k.Plain) {x : Expr} (hx : x ∈ k.sequence) :
    x.inLoop k.loops.next = false := by
  rw [Expr.inLoop, Bool.eq_false_iff, Ne, contains_iff_mem]
  intro hmem
  have hsome := (hk.exprs x hx).tags _ hmem (decide_eq_false (Int.not_lt.2 (Int.natCast_nonneg _)))
  rw [hk.loops.get?_next] at hsome
  cases hsome

end Kernel

/-! ## Calls of a builder -/

/-- Does the call tag only expressions that have the level and lie in no loop there? -/
def BuildStep.marksFree (k : Kernel) : BuildStep → Bool
  | loop m depth _ _ | fakeLoop m depth =>
    (k.walkFrom (Build.sinceMark k m)).all fun e =>
      0 ≤ depth && (k.expr e).loopIds[depth.toInt.toNat]? == some LoopId.null
  | _ => true

/-- Is no expression marked twice at one level? -/
def Builder.marksOnce (b : Builder) : List BuildStep → Bool
  | [] => true
  | s :: rest => s.marksFree b.kernel && (endState (s.run b)).marksOnce rest

/-- Does the call replace no tag of a loop? -/
def BuildStep.spares (id : LoopId) (k : Kernel) : BuildStep → Bool
  | loop m depth _ _ | fakeLoop m depth =>
    (k.walkFrom (Build.sinceMark k m)).all fun e => !(0 ≤ depth && (k.expr e).loopIds[depth.toInt.toNat]? == some id)
  | _ => true

namespace Build

theorem kernel_edit {α : Type} (step : Edit α) (b : Builder) :
    (endState (edit step b)).kernel = endState (step b.kernel) := by
  unfold edit
  cases step b.kernel <;> rfl

variable {m : Option ExprId} {depth : Amount} {es : List ExprId}

section

variable (h : Kernel.Spares id b.kernel.loops b.kernel
  (b.kernel.walkFrom (sinceMark b.kernel m)) depth b.kernel)

include h

theorem spares_fakeLoop (hne : LoopId.fake ≠ id) :
    Kernel.Spares id b.kernel.loops b.kernel (b.kernel.walkFrom (sinceMark b.kernel m)) depth
      (endState (fakeLoop m depth b)).kernel := by
  unfold fakeLoop
  rw [get_bind_run]
  exact Keeps.forM_mem (P := fun c => Kernel.Spares id b.kernel.loops b.kernel _ depth c.kernel)
    (fun e he => keeps_edit fun c hc => hc.setLoopId hne he) b h

theorem follows_loop (hne : (b.kernel.loops.next : LoopId) ≠ id) (workAmount increment : Amount) :
    Kernel.Follows id b.kernel (endState (loop m depth workAmount increment b)).kernel ∧
      ∀ info, b.kernel.loops.get? id = some info →
        (endState (loop m depth workAmount increment b)).kernel.loops.get? id = some info := by
  unfold loop
  rw [get_bind_run]
  revert h
  cases hm : sinceMark b.kernel m with
  | none => exact fun _ => ⟨.refl _, fun _ hinfo => hinfo⟩
  | some e =>
    intro h
    have hwalk : ∀ xs : List ExprId, Kernel.upTo none xs = (xs, true) := by
      intro xs
      induction xs with
      | nil => rfl
      | cons x xs ih => simp [Kernel.upTo, ih]
    show Kernel.Follows id b.kernel (endState (edit _ b)).kernel ∧ ∀ info, _ →
      (endState (edit _ b)).kernel.loops.get? id = _
    rw [kernel_edit]
    unfold Edit.markLoop
    rw [get_bind_run, Kernel.range?, hwalk]
    let l : LoopInfo :=
      { workAmount, increment, dim := b.depth - 1 - depth, entries := b.kernel.entriesOf (b.kernel.walkFrom (some e))
        exits := b.kernel.exitsOf (b.kernel.walkFrom (some e)) }
    let k : Kernel := { b.kernel with loops := (b.kernel.loops.insert l).2 }
    have hstart : Kernel.Spares id k.loops b.kernel (b.kernel.walkFrom (some e)) depth k :=
      ⟨{ h.follows with }, rfl, h.spared⟩
    have hend := Keeps.bind (Keeps.forM_mem fun e he c hc => Kernel.Spares.setLoopId hc hne he)
      (fun _ => .pure (b.kernel.loops.next : LoopId)) k hstart
    refine ⟨hend.follows, fun info hinfo => ?_⟩
    exact (congrArg (LoopTable.get? · id) hend.loops).trans
      ((LoopTable.get?_insert_of_isSome l (by rw [hinfo]; rfl)).trans hinfo)

end

/-- What a call for a loop tags, if all of it is free. -/
theorem exists_free (hk : b.kernel.Plain) {e : ExprId} (hm : sinceMark b.kernel m = some e)
    (hfree : (b.kernel.walkFrom (sinceMark b.kernel m)).all (fun e =>
      0 ≤ depth && (b.kernel.expr e).loopIds[depth.toInt.toNat]? == some LoopId.null) = true) :
    ∃ pre y ys level, b.kernel.Lists (pre ++ y :: ys) ∧ y.id = e ∧
      b.kernel.walkFrom (some e) = (y :: ys).map Expr.id ∧ depth = Int64.ofNat level ∧ level < 2 ^ 63 ∧
      ∀ z ∈ y :: ys, z.loopIds[level]? = some LoopId.null := by
  obtain ⟨pre, y, ys, hlists, hid, hwalk⟩ := hk.exists_sinceMark hm
  rw [hm, hwalk, all_eq_true] at hfree
  have hlevels : ∀ z ∈ y :: ys, 0 ≤ depth ∧ z.loopIds[depth.toInt.toNat]? = some LoopId.null := by
    intro z hz
    have hz' := hfree z.id (mem_map_of_mem hz)
    rwa [hlists.read z (mem_append_right _ hz), Bool.and_eq_true, decide_eq_true_eq, beq_iff_eq] at hz'
  have hdepth := (hlevels y mem_cons_self).1
  refine ⟨pre, y, ys, depth.trips, hlists, hid, hwalk, (Amount.ofNat_trips hdepth).symm, ?_,
    fun z hz => (hlevels z hz).2⟩
  have := Amount.toInt_upper depth
  rw [Amount.trips]
  omega

/-- A loop that has been registered has its boundary. -/
theorem boundary_loop (hk : b.kernel.Plain) {workAmount increment : Amount}
    (hfree : (BuildStep.loop m depth workAmount increment).marksFree b.kernel = true)
    (hnew : b.kernel.loops.get? id = none)
    (hinfo : (endState (loop m depth workAmount increment b)).kernel.loops.get? id = some info) :
    (endState (loop m depth workAmount increment b)).kernel.Boundary id info := by
  revert hinfo
  unfold loop
  rw [get_bind_run]
  cases hm : sinceMark b.kernel m with
  | none => exact fun hinfo => absurd (hnew.symm.trans hinfo) (by simp)
  | some e =>
    obtain ⟨pre, y, ys, level, hlists, rfl, -, rfl, hsmall, hlevels⟩ := exists_free hk hm hfree
    have hlength : ∀ z ∈ y :: ys, level < z.loopIds.length :=
      fun z hz => (List.getElem?_eq_some_iff.1 (hlevels z hz)).1
    replace hlists : b.kernel.Lists (pre ++ (y :: ys) ++ []) := (append_nil _).symm ▸ hlists
    obtain ⟨exprs, hrun, hlists'⟩ :=
      hlists.markLoop hlength hsmall workAmount increment (b.depth - 1 - Int64.ofNat level)
    replace hrun : Edit.markLoop (some y.id) none _ _ _ _ _ = _ := hrun
    show (endState (edit _ b)).kernel.loops.get? id = _ → (endState (edit _ b)).kernel.Boundary id info
    rw [kernel_edit, hrun]
    intro hinfo
    replace hinfo : (b.kernel.loops.insert _).2.get? id = some info := hinfo
    rw [LoopTable.get?_insert, hnew, Option.none_or] at hinfo
    obtain ⟨rfl, heq⟩ := Option.ite_none_right_eq_some.1 hinfo
    obtain rfl := Option.some.inj heq
    exact .of_tagged hlists hlists' hlength (fun x => hk.inLoop_next) rfl rfl rfl
      (fun z hz => (hk.exprs z (by simp [hlists.sequence, mem_cons.1 hz])).marker) (cons_ne_nil y ys) rfl rfl

end Build

theorem BuildStep.kernel_run_loop (m : Option ExprId) (depth workAmount increment : Amount)
    (b : Builder) :
    (endState ((loop m depth workAmount increment).run b)).kernel =
      (endState (Build.loop m depth workAmount increment b)).kernel := by
  show (endState ((Build.loop m depth workAmount increment >>= fun _ => pure ()) b)).kernel = _
  rw [bind_run]
  cases Build.loop m depth workAmount increment b <;> rfl

/-- A call that replaces no tag of a registered loop leaves the loop as it is. -/
theorem BuildStep.follows_run (s : BuildStep) (hk : b.kernel.Plain)
    (hbound : b.kernel.Bound b.registers)
    (known : ∀ t ∈ s.tensors, t.id < b.kernel.nextTensor) (hinfo : b.kernel.loops.get? id = some info)
    (hspares : s.spares id b.kernel = true) :
    Kernel.Follows id b.kernel (endState (s.run b)).kernel ∧ (endState (s.run b)).kernel.loops.get? id = some info := by
  have hfake : LoopId.fake ≠ id := (hk.ne_sentinel hinfo rfl).symm
  have hnext : (b.kernel.loops.next : LoopId) ≠ id := by
    rintro rfl
    rw [hk.loops.get?_next] at hinfo
    cases hinfo
  have hstart : ∀ m depth, ((b.kernel.walkFrom (Build.sinceMark b.kernel m)).all fun e =>
      !(0 ≤ depth && (b.kernel.expr e).loopIds[depth.toInt.toNat]? == some id)) = true →
      Kernel.Spares id b.kernel.loops b.kernel (b.kernel.walkFrom (Build.sinceMark b.kernel m)) depth b.kernel := by
    intro m depth hall
    refine ⟨.refl _, rfl, fun e he hdepth htag => ?_⟩
    have hspared := all_eq_true.1 hall e he
    rw [htag, decide_eq_true hdepth] at hspared
    simp at hspared
  cases hs : s.tags with
  | false =>
    have hend := keeps_plain hs known b ⟨hk, Nat.le_refl _, hbound, .refl b.kernel⟩
    exact ⟨hend.continues.follows (hk.ne_sentinel hinfo rfl), hend.continues.loops.symm ▸ hinfo⟩
  | true =>
    cases s with
    | loop m depth workAmount increment =>
      rw [kernel_run_loop]
      exact (Build.follows_loop (hstart m depth hspares) hnext workAmount increment).imp_right fun h => h info hinfo
    | fakeLoop m depth =>
      have hend := Build.spares_fakeLoop (hstart m depth hspares) hfake
      exact ⟨hend.follows, hend.loops.symm ▸ hinfo⟩
    | _ => cases hs

/-- A call that tags free levels only replaces no tag of a loop. -/
theorem BuildStep.spares_of_marksFree {s : BuildStep} (h : s.marksFree k = true)
    (hid : id ≠ LoopId.null) :
    s.spares id k = true := by
  cases s with
  | loop m depth _ _ | fakeLoop m depth =>
    refine all_eq_true.2 fun e he => ?_
    have hfree := all_eq_true.1 h e he
    rw [Bool.and_eq_true, beq_iff_eq] at hfree
    rw [hfree.1, hfree.2]
    simp [hid.symm]
  | _ => rfl

/-- A loop that a call has registered has its boundary, if the call tags free levels only. -/
theorem BuildStep.boundary_new (s : BuildStep) (hk : b.kernel.Plain)
    (hbound : b.kernel.Bound b.registers)
    (known : ∀ t ∈ s.tensors, t.id < b.kernel.nextTensor) (hfree : s.marksFree b.kernel = true)
    (hnew : b.kernel.loops.get? id = none) (hinfo : (endState (s.run b)).kernel.loops.get? id = some info) :
    (endState (s.run b)).kernel.Boundary id info := by
  have hsame : (endState (s.run b)).kernel.loops ≠ b.kernel.loops := fun hloops => by
    rw [hloops, hnew] at hinfo
    cases hinfo
  cases hs : s.tags with
  | false =>
    exact absurd (keeps_plain hs known b ⟨hk, Nat.le_refl _, hbound, .refl _⟩).continues.loops hsame
  | true =>
    cases s with
    | fakeLoop m depth =>
      have htags (e : ExprId) : Keeps (fun k : Kernel => k.loops = b.kernel.loops)
        (Edit.setLoopId e LoopId.fake depth) :=
        .bind (Edit.keeps_ask _) fun x => .modify fun _ h => h
      have hkeeps : Keeps (fun c : Builder => c.kernel.loops = b.kernel.loops) (Build.fakeLoop m depth) :=
        .get_bind fun _ _ => .forM (fun e => Build.keeps_edit fun c hc => htags e c.kernel hc) _
      exact absurd (hkeeps b rfl) hsame
    | loop m depth workAmount increment =>
      rw [kernel_run_loop] at hinfo ⊢
      exact Build.boundary_loop hk hfree hnew hinfo
    | _ => cases hs

/-- A call keeps the boundaries of all loops if it tags free levels only. -/
theorem BuildStep.bounded_run (s : BuildStep) (hk : b.kernel.Plain)
    (hbound : b.kernel.Bound b.registers)
    (known : ∀ t ∈ s.tensors, t.id < b.kernel.nextTensor) (hfree : s.marksFree b.kernel = true)
    (hb : b.kernel.Bounded) : (endState (s.run b)).kernel.Bounded := by
  intro id info hinfo
  cases hold : b.kernel.loops.get? id with
  | none => exact s.boundary_new hk hbound known hfree hold hinfo
  | some info0 =>
    have hspares := s.spares_of_marksFree hfree (hk.ne_sentinel hold rfl)
    obtain ⟨hfollows, hsame⟩ := s.follows_run hk hbound known hold hspares
    obtain rfl : info0 = info := Option.some.inj (hsame.symm.trans hinfo)
    exact (hb id info0 hold).follow hfollows hk.lists (s.plain_run hk hbound known).1.lists

theorem Built.bounded_after {steps : List BuildStep} (hbuilt : Built b) (hb : b.kernel.Bounded)
    (hknown : b.knows steps = true) (honce : b.marksOnce steps = true) : (b.after steps).kernel.Bounded := by
  induction steps generalizing b with
  | nil => exact hb
  | cons s rest ih =>
    rw [Builder.knows, Bool.and_eq_true, all_eq_true] at hknown
    rw [Builder.marksOnce, Bool.and_eq_true] at honce
    have known : ∀ t ∈ s.tensors, t.id < b.kernel.nextTensor := fun t ht => of_decide_eq_true (hknown.1 t ht)
    obtain ⟨hplain, hbound⟩ := hbuilt.plain_bound
    exact ih (hbuilt.step s known) (s.bounded_run hplain hbound known honce.1 hb) hknown.2 honce.2

/-- After any calls of a builder that mark no expression twice at one level, the entries of every
    registered loop are exactly the inputs of its expressions whose tensor nothing produces or
    something outside the loop came to produce first. Its exits are exactly the outputs that nothing
    in the loop consumes and those that something before the loop consumes. -/
theorem Builder.after_boundary (config : Config) (elementType : ElementType) (depth count : Amount)
    (steps : List BuildStep) (hknown : (Builder.start config elementType depth count).knows steps = true)
    (honce : (Builder.start config elementType depth count).marksOnce steps = true) (id : LoopId) (info : LoopInfo)
    (h : ((Builder.start config elementType depth count).after steps).kernel.loops.get? id = some info) :
    ((Builder.start config elementType depth count).after steps).kernel.Boundary id info :=
  Built.bounded_after (.start config elementType depth count) (fun _ _ h => by cases h) hknown honce id info h

/-- A load and a store in a loop, and a second store of the loaded value behind it. -/
def lateStore : List BuildStep :=
  [.parameter [16], .load (vector 16 0), .store (vector 16 1), .loop (some 0) 0 16 8, .store (vector 16 1)]

/-- The loop of the two. -/
def lateStoreLoop : LoopInfo :=
  { workAmount := 16, increment := 8, dim := 0, entries := [⟨1, .input, 0⟩], exits := [⟨2, .output, 0⟩] }

theorem Builder.after_boundary_lateStore :
    ((Builder.start {} .float32 1 8).after lateStore).kernel.Boundary 0 lateStoreLoop :=
  Builder.after_boundary {} .float32 1 8 lateStore (by decide) (by decide) 0 lateStoreLoop (by decide)

/-- The loaded value is consumed outside the loop and is not among its exits. -/
theorem Builder.after_misses_exit :
    let k := ((Builder.start {} .float32 1 8).after lateStore).kernel
    (Builder.start {} .float32 1 8).marksOnce lateStore = true ∧ k.loops.get? 0 = some lateStoreLoop ∧
      (k.expr 1).inLoop 0 = true ∧ (k.expr 1).outputs[0]? = some (vector 16 1) ∧
      (∃ p ∈ k.consumers 1, (k.expr p.expr).inLoop 0 = false) ∧ ⟨1, .output, 0⟩ ∉ lateStoreLoop.exits := by
  decide

end KernelLoops
