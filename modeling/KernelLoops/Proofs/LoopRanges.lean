import KernelLoops.Proofs.Boundaries
import KernelLoops.Proofs.RangeCopies

set_option autoImplicit false

/-! # Ranges of marked loops

The range of a loop is not stored. It is found again from the expressions that carry the boundary,
and from there over the neighbours with the same tag. As long as the tags stand, this gives the
range that was marked, whatever building has added behind it. -/

namespace KernelLoops

open List

variable {k k' : Kernel} {b : Builder} {info : LoopInfo} {id : LoopId}

namespace Kernel

theorem Follows.trans {k'' : Kernel} (h : Follows id k k') (h' : Follows id k' k'') :
    Follows id k k'' where
  order := h.order.trans h'.order
  produced := h.produced.trans h'.produced
  inputs e he := (h'.inputs e (h.order.subset he)).trans (h.inputs e he)
  outputs e he := (h'.outputs e (h.order.subset he)).trans (h.outputs e he)
  inLoop e he := (h'.inLoop e (h.order.subset he)).trans (h.inLoop e he)
  outside e he hnew := by
    by_cases hmid : e ∈ k'.order
    · exact (h'.inLoop e hmid).trans (h.outside e hmid hnew)
    · exact h'.outside e he hmid

/-- A range of the sequence is the loop: it holds the boundary, and nothing else is tagged. -/
structure Covers (k : Kernel) (id : LoopId) (info : LoopInfo) (pre range post : List ExprId) :
    Prop where
  registered : k.loops.get? id = some info
  order : k.order = pre ++ range ++ post
  nodup : k.order.Nodup
  tagged : ∀ e ∈ k.order, (k.expr e).inLoop id = true ↔ e ∈ range
  boundary : ∀ p ∈ info.ports, p.expr ∈ range

namespace Covers

variable {pre range post : List ExprId}

/-- The range of the loop is found again. -/
theorem loopBounds (h : k.Covers id info pre range post) (hports : info.ports ≠ []) :
    ∃ start, range.head? = some start ∧ k.loopBounds id = .ok (start, post.head?) := by
  have hnodup := h.nodup
  rw [h.order, nodup_append, nodup_append] at hnodup
  have hout : ∀ e ∈ k.order, e ∉ range → (k.expr e).inLoop id = false := fun e he hnot => by
    rw [← Bool.not_eq_true, h.tagged e he]
    exact hnot
  refine loopBounds_eq h.registered hports h.order (fun e he => ?_) (fun e he => ?_) (fun e he => ?_) h.boundary
  · exact hout e (by simp [h.order, he]) fun hin => hnodup.1.2.2 e he e hin rfl
  · exact (h.tagged e (by simp [h.order, he])).2 he
  · exact hout e (by simp [h.order, he]) fun hin => hnodup.2.2 e (mem_append_right _ hin) e he rfl

/-- Building on adds behind the range. -/
theorem follow (h : k.Covers id info pre range post) (hfollows : Follows id k k')
    (hnodup : k'.order.Nodup)
    (hinfo : k'.loops.get? id = some info) : ∃ more, k'.Covers id info pre range (post ++ more) := by
  obtain ⟨more, hmore⟩ := hfollows.order
  refine ⟨more, hinfo, by rw [← hmore, h.order, append_assoc], hnodup, fun e he => ?_, h.boundary⟩
  by_cases hold : e ∈ k.order
  · rw [hfollows.inLoop e hold, h.tagged e hold]
  · rw [hfollows.outside e he hold]
    exact ⟨fun hfalse => absurd hfalse Bool.false_ne_true, fun hin => absurd (by simp [h.order, hin]) hold⟩

end Covers

end Kernel

/-- Do the calls of a list replace no tag of a loop? -/
def Builder.spares (id : LoopId) (b : Builder) : List BuildStep → Bool
  | [] => true
  | s :: rest => s.spares id b.kernel && (endState (s.run b)).spares id rest

/-- Calls that replace no tag of a registered loop leave it as it is. -/
theorem Builder.follows_after {steps : List BuildStep} (hk : b.kernel.Plain)
    (hbound : b.kernel.Bound b.registers)
    (hinfo : b.kernel.loops.get? id = some info) (hknown : b.knows steps = true) (hspares : b.spares id steps = true) :
    Kernel.Follows id b.kernel (b.after steps).kernel ∧ (b.after steps).kernel.loops.get? id = some info ∧
      (b.after steps).kernel.Plain := by
  induction steps generalizing b with
  | nil => exact ⟨.refl _, hinfo, hk⟩
  | cons s rest ih =>
    rw [Builder.knows, Bool.and_eq_true, all_eq_true] at hknown
    rw [Builder.spares, Bool.and_eq_true] at hspares
    have known : ∀ t ∈ s.tensors, t.id < b.kernel.nextTensor := fun t ht => of_decide_eq_true (hknown.1 t ht)
    obtain ⟨hfollows, hinfo'⟩ := s.follows_run hk hbound known hinfo hspares.1
    obtain ⟨hk', hbound'⟩ := s.plain_run hk hbound known
    obtain ⟨hrest, hend⟩ := ih hk' hbound' hinfo' hknown.2 hspares.2
    exact ⟨hfollows.trans hrest, hend⟩

/-- Marking a range of a built kernel at a level that its expressions have makes it a loop. -/
theorem Kernel.Plain.exists_covers (hk : k.Plain) {start stop : Option ExprId} {range : List ExprId}
    (hrange : k.range? start stop = some range) (hmem : ∀ e ∈ range, e ∈ k.order) (hne : range ≠ []) {depth : Amount}
    (hdepth : ∀ e ∈ range, 0 ≤ depth ∧ depth.toInt < (k.expr e).loopIds.length) (workAmount increment dim : Amount) :
    ∃ id k' info pre post, Edit.markLoop start stop depth workAmount increment dim k = .ok id k' ∧
      k'.Covers id info pre range post ∧ start = range.head? ∧ post.head? = stop := by
  obtain ⟨pre, post, horder, hends⟩ := exists_order_split hrange hmem
  obtain ⟨hstart, hstop⟩ := hends.resolve_left hne
  obtain ⟨first, rest, rfl⟩ := exists_cons_of_ne_nil hne
  subst hstart
  have hid : ∀ e ∈ k.order, (k.expr e).id = e := fun e he => by
    obtain ⟨x, hx, rfl⟩ := hk.lists.mem_order.1 he
    rw [hk.lists.read x hx]
  have hids : ∀ es : List ExprId, (∀ e ∈ es, e ∈ k.order) → (es.map k.expr).map Expr.id = es := fun es hes => by
    rw [map_map]
    exact (map_congr_left fun e he => hid e (hes e he)).trans (map_id _)
  have hlists : k.Lists (pre.map k.expr ++ (k.expr first :: rest.map k.expr) ++ post.map k.expr) := by
    have hall := hk.lists
    rw [sequence, horder, map_append, map_append] at hall
    exact hall
  have hfirst := hdepth first mem_cons_self
  have hlevel : ∀ z ∈ k.expr first :: rest.map k.expr, depth.trips < z.loopIds.length := fun z hz => by
    obtain ⟨e, he, rfl⟩ := mem_map.1 (show z ∈ (first :: rest).map k.expr from hz)
    have hnonneg : 0 ≤ depth.toInt := Amount.le_iff.1 hfirst.1
    have hless := (hdepth e he).2
    rw [Amount.trips]
    omega
  have hsmall : depth.trips < 2 ^ 63 := by
    have := Amount.toInt_upper depth
    rw [Amount.trips]
    omega
  obtain ⟨exprs, hrun, hlists'⟩ := hlists.markLoop hlevel hsmall workAmount increment dim
  have hrest : ∀ e ∈ rest, e ∈ k.order := fun e he => hmem e (mem_cons_of_mem first he)
  have hpost : ∀ e ∈ post, e ∈ k.order := fun e he => by simp [horder, he]
  have hnumbers : (k.expr first :: rest.map k.expr).map Expr.id = first :: rest := by
    rw [map_cons, hid first (hmem first mem_cons_self), hids rest hrest]
  rw [hnumbers, hid first (hmem first mem_cons_self), ← head?_map, hids post hpost, hstop,
    Amount.ofNat_trips hfirst.1] at hrun
  have hnodup : k.order.Nodup := hk.lists.order ▸ hk.lists.nodup
  refine ⟨_, _, _, pre, post, hrun, ⟨hk.loops.get?_insert_next _, horder, hnodup, fun e he => ?_, fun p hp => ?_⟩,
    rfl, hstop⟩
  · rw [← hnumbers]
    exact inLoop_tagged_iff hlists hlists' hlevel (fun x => hk.inLoop_next) he
  · rcases mem_append.1 hp with hp | hp
    · exact (mem_entriesOf.1 hp).2.1
    · exact (mem_exitsOf.1 hp).2.1

/-- Marking a range of a built kernel at a level that its expressions have registers a loop. If it
    has an entry or an exit, its range is the one that was marked. After any calls of the builder
    that replace none of its tags, its range still begins there and ends before what follows its
    last expression. -/
theorem Builder.loopBounds_marked (hb : Built b) {start : ExprId} {stop : Option ExprId}
    {range : List ExprId}
    (hrange : b.kernel.range? (some start) stop = some range) (hmem : ∀ e ∈ range, e ∈ b.kernel.order) {last : ExprId}
    (hlast : range.getLast? = some last) {depth : Amount}
    (hdepth : ∀ e ∈ range, 0 ≤ depth ∧ depth.toInt < (b.kernel.expr e).loopIds.length)
    (workAmount increment dim : Amount) :
    ∃ id k' info, Edit.markLoop (some start) stop depth workAmount increment dim b.kernel = .ok id k' ∧
      k'.loops.get? id = some info ∧ (info.entries ≠ [] ∨ info.exits ≠ [] →
        k'.loopBounds id = .ok (start, stop) ∧ ∀ steps, ({ b with kernel := k' } : Builder).knows steps = true →
          ({ b with kernel := k' } : Builder).spares id steps = true →
          let k'' := (({ b with kernel := k' } : Builder).after steps).kernel
          k''.loopBounds id = .ok (start, k''.next? last)) := by
  have hne : range ≠ [] := fun hnil => by simp [hnil] at hlast
  obtain ⟨id, k', info, pre, post, hrun, hcovers, hstart, rfl⟩ :=
    hb.plain.exists_covers hrange hmem hne hdepth workAmount increment dim
  refine ⟨id, k', info, hrun, hcovers.registered, fun hports => ?_⟩
  have hports' : info.ports ≠ [] := by
    rw [LoopInfo.ports, Ne, append_eq_nil_iff, not_and_or]
    exact hports
  have hbounds : ∀ {k : Kernel} {post : List ExprId}, k.Covers id info pre range post →
      k.loopBounds id = .ok (start, post.head?) := by
    intro k post hk
    obtain ⟨first, hfirst, hbounds⟩ := hk.loopBounds hports'
    rw [hbounds, Option.some.inj (hstart.trans hfirst)]
  have hmarked := Build.plain_markLoop (some start) post.head? depth workAmount increment dim hb.plain
  rw [hrun] at hmarked
  refine ⟨hbounds hcovers, fun steps hknown hspares => ?_⟩
  obtain ⟨hfollows, hinfo, hplain⟩ := Builder.follows_after (b := { b with kernel := k' }) hmarked.1
    (hmarked.2 _ hb.plain_bound.2) hcovers.registered hknown hspares
  obtain ⟨more, hlater⟩ := hcovers.follow hfollows (hplain.lists.order ▸ hplain.lists.nodup) hinfo
  intro k''
  have hnext : k''.next? last = (post ++ more).head? := by
    obtain ⟨front, rfl⟩ := getLast?_eq_some_iff.1 hlast
    have horder : k''.order = (pre ++ front) ++ last :: (post ++ more) := by
      rw [hlater.order]
      simp
    have hnodup := hlater.nodup
    rw [horder, nodup_append] at hnodup
    rw [Kernel.next?, horder, Kernel.behind_append fun hin => hnodup.2.2 last hin last mem_cons_self rfl]
  rw [hnext]
  exact hbounds hlater

/-- A value that is loaded, negated and stored, with two levels. -/
def negation : Builder :=
  (Builder.start {} .float32 2 8).after
    [.parameter [16], .load (vector 16 0), .elementwise "Neg" [vector 16 1], .store (vector 16 2)]

/-- All becomes a loop at the outer level, and more is stored. -/
def negationLater : List BuildStep := [.loop none 0 4 2, .store (vector 16 2)]

/-- The first two of the three can be marked as a loop, and building goes on without touching its
    tags. -/
theorem run_negation :
    EStateM.run' (do
      let id ← Edit.markLoop (some 1) (some 3) 1 16 8 0
      let k ← get
      return decide (id = 0 ∧ (k.loops.get? id).all (fun l => decide (l.entries ≠ [])) = true ∧
        ({ negation with kernel := k } : Builder).knows negationLater = true ∧
        ({ negation with kernel := k } : Builder).spares id negationLater = true) : Edit Bool)
      negation.kernel = some true := by
  decide +kernel

theorem Builder.loopBounds_marked_negation :
    ∃ k', Edit.markLoop (some 1) (some 3) 1 16 8 0 negation.kernel = .ok 0 k' ∧ k'.loopBounds 0 = .ok (1, some 3) ∧
      let k'' := (({ negation with kernel := k' } : Builder).after negationLater).kernel
      k''.loopBounds 0 = .ok (1, k''.next? 2) := by
  have hbuilt : Built negation := (Built.start {} .float32 2 8).after (by decide)
  obtain ⟨id, k', info, hmark, hinfo, hbounds⟩ := Builder.loopBounds_marked hbuilt
    (show negation.kernel.range? (some 1) (some 3) = some [1, 2] by decide) (by decide) rfl
    (show ∀ e ∈ [1, 2], (0 : Amount) ≤ 1 ∧
    (1 : Amount).toInt < (negation.kernel.expr e).loopIds.length by decide) 16 8 0
  obtain ⟨s, hrun⟩ := exists_of_run' run_negation
  rw [bind_run_ok hmark, get_bind_run] at hrun
  injection hrun with hfacts
  obtain ⟨rfl, hentries, hknows, hspares⟩ := of_decide_eq_true hfacts
  rw [hinfo] at hentries
  obtain ⟨hfirst, hlater⟩ := hbounds (.inl (of_decide_eq_true hentries))
  exact ⟨k', hmark, hfirst, hlater _ hknows hspares⟩

end KernelLoops
