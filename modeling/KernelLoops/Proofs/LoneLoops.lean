import KernelLoops.Proofs.Pieces

set_option autoImplicit false

/-! # Loops without neighbours

A loop takes in the loops that feed it and those it feeds. In a kernel whose loops read parameters,
constants and buffers and write for results and buffers there is nothing to take in, and fusion
leaves the kernel as it is. -/

namespace KernelLoops

open List

variable {x : Expr} {id : LoopId} {budget depth : Nat} {p : Piece}

namespace Kernel.Lists

variable {k : Kernel} {xs : List Expr} {t : TensorId}

/-- The producer of a tensor is listed and makes it. -/
theorem of_producer? (h : k.Lists xs) (hx : k.producer? t = some x) : x ∈ xs ∧
    ∃ u ∈ x.outputs, t = u.id := by
  obtain ⟨q, hq, rfl⟩ := Option.map_eq_some_iff.1 hx
  obtain ⟨x, hmem, hexpr, -, u, hu, hid⟩ := h.mem_producers.1 (mem_of_mem_head? hq)
  rw [hexpr, h.read x hmem]
  exact ⟨hmem, u, mem_of_getElem? hu, hid⟩

/-- A consumer of a tensor is listed and reads it. -/
theorem of_consumer (h : k.Lists xs) {q : Port} (hq : q ∈ k.consumers t) :
    k.expr q.expr ∈ xs ∧ ∃ u ∈ (k.expr q.expr).inputs, t = u.id := by
  obtain ⟨x, hmem, hexpr, -, u, hu, hid⟩ := h.mem_consumers.1 hq
  rw [hexpr, h.read x hmem]
  exact ⟨hmem, u, mem_of_getElem? hu, hid⟩

end Kernel.Lists

/-- No loop feeds the piece. -/
def Piece.Unfed (p : Piece) (k : Kernel) : Prop :=
  ∀ q ∈ p.entries, ∃ t, k.tensorAt q = .ok t ∧
    ∀ y, k.producer? t.id = some y → y.kind = .constant ∨ y.kind = .parameter ∨ y.kind = .buffer

/-- The piece feeds no loop. -/
def Piece.Feedless (p : Piece) (k : Kernel) : Prop :=
  ∀ q ∈ p.exits, ∃ t, k.tensorAt q = .ok t ∧
    ∀ c ∈ k.consumers t.id, (k.expr c.expr).kind = .result ∨ (k.expr c.expr).kind = .buffer ∨
      (k.expr c.expr).kind.isMarker

namespace Fusion

open Edit

variable {k : Kernel} {level : Nat} {span : Span}

theorem fuseProducers_unfed {entries : List Port}
    (h : ∀ q ∈ entries, ∃ t, k.tensorAt q = .ok t ∧
      ∀ y, k.producer? t.id = some y → y.kind = .constant ∨ y.kind = .parameter ∨ y.kind = .buffer) :
    fuseProducers budget id level depth span entries k = .ok none k := by
  induction entries with
  | nil => rfl
  | cons q entries ih =>
    obtain ⟨t, ht, hproducer⟩ := h q mem_cons_self
    have hrest := ih fun q' hq' => h q' (mem_cons_of_mem q hq')
    unfold fuseProducers
    rw [bind_run_ok (ask_run_ok ht), get_bind_run]
    cases hy : k.producer? t.id with
    | none => exact hrest
    | some y =>
      have hkind : (decide (y.kind = .constant) || decide (y.kind = .parameter) || decide
          (y.kind = .buffer)) = true := by
        rcases hproducer y hy with hk | hk | hk <;> rw [hk] <;> rfl
      simp only [hkind, if_true]
      exact hrest

theorem fuseConsumersOf_feedless {exit : Port} {consumers : List Port}
    (h : ∀ c ∈ consumers, (k.expr c.expr).kind = .result ∨ (k.expr c.expr).kind = .buffer ∨
    (k.expr c.expr).kind.isMarker) :
    fuseConsumersOf budget id level depth span exit consumers k = .ok none k := by
  induction consumers with
  | nil => rfl
  | cons c consumers ih =>
    have hrest := ih fun c' hc' => h c' (mem_cons_of_mem c hc')
    have hkind : (decide ((k.expr c.expr).kind = .result) || decide ((k.expr c.expr).kind = .buffer) ||
        (k.expr c.expr).kind.isMarker) = true := by
      rcases h c mem_cons_self with hk | hk | hk
      · rw [hk]; rfl
      · rw [hk]; rfl
      · rw [hk, Bool.or_true]
    unfold fuseConsumersOf
    rw [get_bind_run]
    simp only [hkind, if_true]
    exact hrest

theorem fuseConsumers_feedless {exits : List Port}
    (h : ∀ q ∈ exits, ∃ t, k.tensorAt q = .ok t ∧ ∀ c ∈ k.consumers t.id,
      (k.expr c.expr).kind = .result ∨ (k.expr c.expr).kind = .buffer ∨ (k.expr c.expr).kind.isMarker) :
    fuseConsumers budget id level depth span exits k = .ok none k := by
  induction exits with
  | nil => rfl
  | cons q exits ih =>
    obtain ⟨t, ht, hconsumers⟩ := h q mem_cons_self
    unfold fuseConsumers
    rw [bind_run_ok (ask_run_ok ht), get_bind_run, bind_run_ok (fuseConsumersOf_feedless hconsumers)]
    exact ih fun q' hq' => h q' (mem_cons_of_mem q hq')

end Fusion

namespace Kernel.Pieces

open Edit Fusion

variable {k : Kernel} {ps : List Piece} (h : k.Pieces ps) (hunfed : ∀ p ∈ ps, p.Unfed k)
  (hfeedless : ∀ p ∈ ps, p.Feedless k) (hports : ∀ p ∈ ps, p.sizes ≠ [] → p.entries ++ p.exits ≠ [])

include h hports

/-- The range of a loop of a piece. -/
theorem loopBounds (hp : p ∈ ps) (hid : id ∈ LoopId.loops p.tags) :
    ∃ outer size inner bounds, p.sizes = outer ++ size :: inner ∧ k.loops.get? id = some (p.loop size inner) ∧
      k.loopBounds id = .ok bounds := by
  obtain ⟨outer, size, inner, hsizes, hinfo⟩ := (h.sits p hp).registered.mem hid
  obtain ⟨before, after, hseq, hbefore, hbody, hafter⟩ := h.grouped.exists_run hp hid
  have horder : k.order = before.map Expr.id ++ p.body.map Expr.id ++ after.map Expr.id := by
    rw [h.plain.lists.order, hseq, map_append, map_append]
  have hread : ∀ x ∈ before ++ p.body ++ after, k.expr x.id = x := fun x hx => h.plain.lists.read x (hseq ▸ hx)
  obtain ⟨start, -, hbounds⟩ := Kernel.loopBounds_eq hinfo (hports p hp (by rw [hsizes]; simp)) horder
    (forall_mem_map.2 fun x hx => by rw [hread x (by simp [hx])]; exact hbefore x hx)
    (forall_mem_map.2 fun x hx => by rw [hread x (by simp [hx])]; exact hbody x hx)
    (forall_mem_map.2 fun x hx => by rw [hread x (by simp [hx])]; exact hafter x hx)
    (fun q hq => by
      obtain ⟨x, hx, hid'⟩ := (h.sits p hp).boundary q hq
      exact hid' ▸ mem_map_of_mem hx)
  exact ⟨outer, size, inner, _, hsizes, hinfo, hbounds⟩

include hunfed hfeedless

/-- There is nothing to fuse around a loop. -/
theorem fuseAround (hp : p ∈ ps) (hid : id ∈ LoopId.loops p.tags) (hbudget : 0 < budget)
    (level depth : Nat) :
    Fusion.fuseAround budget id level depth k = .ok false k := by
  obtain ⟨outer, size, inner, bounds, -, hinfo, hbounds⟩ := h.loopBounds hports hp hid
  have hinfo' := LoopTable.info_eq_ok.2 hinfo
  obtain ⟨rounds, rfl⟩ : ∃ n, budget = n + 1 := ⟨budget - 1, by omega⟩
  have hup : ∀ span, fuseProducers (rounds + 1) id level depth span (p.loop size inner).entries k = .ok none k :=
    fun _ => fuseProducers_unfed (hunfed p hp)
  have hdown : ∀ span, fuseConsumers (rounds + 1) id level depth span (p.loop size inner).exits k = .ok none k :=
    fun _ => fuseConsumers_feedless (hfeedless p hp)
  unfold Fusion.fuseAround
  rw [bind_run_ok (ask_run_ok hinfo'), bind_run_ok (ask_run_ok hbounds)]
  simp only []
  unfold fuseRounds
  rw [bind_run_ok (ask_run_ok hinfo'), bind_run_ok (hup _)]
  simp only [Option.isSome_none, Bool.false_and, Bool.false_eq_true, if_false, Option.getD_none]
  rw [bind_run_ok (ask_run_ok hinfo'), bind_run_ok (hdown _)]
  rfl

/-- There is nothing to fuse at an expression. -/
theorem fuseAt (hdepth : ∀ p ∈ ps, p.tags.length = depth) (hx : x ∈ k.sequence)
    (hbudget : 0 < budget)
    {previous : Option (List LoopId)} (hprevious : ∀ ids ∈ previous, ids.length = depth) :
    Fusion.fuseAt budget x.id previous k = .ok false k := by
  obtain ⟨p, hp, hxp⟩ := h.grouped.mem hx
  have htags := (h.sits p hp).tagged x hxp
  have hlength : x.loopIds.length = depth := by rw [htags, hdepth p hp]
  have hread := h.plain.lists.read x hx
  obtain ⟨first, hfirst⟩ : ∃ first, firstChange x previous = .ok first := by
    cases previous with
    | none => exact ⟨0, rfl⟩
    | some ids => exact ⟨_, if_neg (by rw [hlength, hprevious ids rfl]; exact not_not.2 rfl)⟩
  have hlevels : ∀ (levels : List Nat), (∀ level ∈ levels, level < depth) →
      (levels.foldlM (fun modified (level : Nat) => do
        let id ← Edit.ask fun k => fetch (k.expr x.id).loopIds level
        if id.isSentinel then return modified
        let changed ← Fusion.fuseAround budget id level x.loopIds.length
        return modified || changed) false : Edit Bool) k = .ok false k := by
    intro levels hlt
    induction levels with
    | nil => rfl
    | cons level levels ih =>
      have hlevel : level < x.loopIds.length := hlength ▸ hlt level mem_cons_self
      have hfetch : fetch (k.expr x.id).loopIds (level : Int) = .ok x.loopIds[level] := by
        rw [hread]
        exact fetch_eq_ok_iff.2 (getElem?_eq_getElem hlevel)
      have hrest := ih fun l hl => hlt l (mem_cons_of_mem level hl)
      rw [foldlM_cons]
      refine (bind_run_ok ?_).trans hrest
      rw [bind_run_ok (ask_run_ok hfetch)]
      cases hs : x.loopIds[level].isSentinel with
      | true => rfl
      | false =>
        have hid : x.loopIds[level] ∈ LoopId.loops p.tags :=
          LoopId.mem_loops.2 ⟨htags ▸ getElem_mem hlevel, hs⟩
        simp only [Bool.false_eq_true, if_false]
        rw [bind_run_ok (h.fuseAround hunfed hfeedless hports hp hid hbudget level _)]
        rfl
  unfold Fusion.fuseAt
  rw [get_bind_run, hread, bind_run_ok (ask_run_ok hfirst)]
  exact hlevels _ fun level hl => by
    have := mem_range'_1.1 hl
    omega

/-- Fusion finds nothing to do. -/
theorem fusion_idle (hdepth : ∀ p ∈ ps, p.tags.length = depth) : Fusion.run k = .ok false k := by
  have hlists := h.plain.lists
  have hbudget : 0 < enough k := by
    rw [enough]
    exact Nat.mul_pos (Nat.succ_pos _) (Nat.succ_pos _)
  have hscan : ∀ (post pre : List Expr), k.sequence = pre ++ post → ∀ steps, post.length ≤ steps →
      ∀ previous : Option (List LoopId), (∀ ids ∈ previous, ids.length = depth) →
      scan (enough k) steps (post.head?.map Expr.id) previous false k = .ok false k := by
    intro post
    induction post with
    | nil =>
      intro pre hseq steps hsteps previous hprevious
      cases steps <;> rfl
    | cons x post ih =>
      intro pre hseq steps hsteps previous hprevious
      obtain ⟨steps, rfl⟩ : ∃ n, steps = n + 1 := ⟨steps - 1, by rw [length_cons] at hsteps; omega⟩
      have hx : x ∈ k.sequence := by rw [hseq]; simp
      have hnext : k.next? x.id = post.head?.map Expr.id := by
        have hl := hlists
        rw [hseq] at hl
        exact hl.next?
      have hrest := ih (pre ++ [x]) (by rw [hseq, append_cons]) steps (by rw [length_cons] at hsteps; omega)
      show scan (enough k) (steps + 1) (some x.id) previous false k = _
      unfold scan
      rw [get_bind_run, hlists.read x hx]
      cases hkind : x.kind.isInterface with
      | true =>
        simp only [if_true]
        rw [get_bind_run, hnext]
        exact hrest previous hprevious
      | false =>
        simp only [Bool.false_eq_true, if_false]
        rw [bind_run_ok (h.fuseAt hunfed hfeedless hports hdepth hx hbudget hprevious), get_bind_run, hnext,
          hlists.read x hx]
        refine hrest _ fun ids hids => ?_
        rw [Expr.levels?] at hids
        split at hids
        · obtain ⟨p, hp, hxp⟩ := h.grouped.mem hx
          rw [← Option.mem_some.1 hids, (h.sits p hp).tagged x hxp, hdepth p hp]
        · cases hids
  have hlength : k.sequence.length ≤ enough k := by
    have horder : k.sequence.length = k.order.length := length_map _
    rw [horder, enough]
    exact Nat.le_trans (Nat.le_add_right _ 2) (Nat.le_mul_of_pos_right _ (Nat.succ_pos _))
  have hfirst : k.first? = k.sequence.head?.map Expr.id := by
    rw [Kernel.first?, hlists.order, head?_map]
  unfold Fusion.run fuse
  rw [get_bind_run, get_bind_run, hfirst]
  exact hscan k.sequence [] rfl (enough k) hlength none (by simp)

end Kernel.Pieces

end KernelLoops
