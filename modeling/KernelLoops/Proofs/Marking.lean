import KernelLoops.Proofs.Built
import KernelLoops.Proofs.ProperNesting

set_option autoImplicit false

/-! # Materializing properly nested loops

Where the loops of a kernel are properly nested, materializing them gives nested code: around the
expressions that a loop tags stand its two markers, and the parameters of the closing one are those
read off the kernel before any marker was inserted. The pass goes through the kernel from front to
back and inserts outer loops first, so the run of a loop holds no marker yet when its own are
inserted. -/

namespace KernelLoops

open List

variable {k : Kernel} {e x : Expr} {post pre : List Expr} {l : LoopParams} {info : LoopInfo}
  {flag : Bool}
  {acc acc' : List ExprId × List Port} {ps entries : List Port} {operands : List Tensor} {id : LoopId} {p : Port}
  {t : Tensor}

/-- A kernel the way a builder leaves it has no markers. -/
theorem Kernel.Plain.unmarked (hk : k.Plain) : k.Unmarked where
  lists := hk.lists
  plain := by
    intro x hx
    exact (hk.exprs x hx).marker

/-! ## The range of a loop -/

/-- A list with an item that fails a test divides at the first such item. -/
theorem exists_first {α : Type} {p : α → Bool} {xs : List α} (h : ∃ x ∈ xs, p x = false) :
    ∃ before x after, xs = before ++ x :: after ∧ (∀ a ∈ before, p a = true) ∧ p x = false := by
  have hne : xs.dropWhile p ≠ [] := fun hnil => by
    obtain ⟨x, hx, hpx⟩ := h
    rw [dropWhile_eq_nil_iff.1 hnil x hx] at hpx
    cases hpx
  refine ⟨xs.takeWhile p, (xs.dropWhile p).head hne, (xs.dropWhile p).tail, ?_,
    fun a ha => mem_takeWhile_imp ha, head_dropWhile_not p hne⟩
  rw [cons_head_tail, takeWhile_append_dropWhile]

/-- The range of a loop whose expressions stand in a row and carry its boundary. -/
theorem Kernel.loopBounds_eq {pre run post : List ExprId} (hinfo : k.loops.get? id = some info)
    (hports : info.ports ≠ []) (horder : k.order = pre ++ run ++ post)
    (hpre : ∀ e ∈ pre, (k.expr e).inLoop id = false) (hrun : ∀ e ∈ run, (k.expr e).inLoop id = true)
    (hpost : ∀ e ∈ post, (k.expr e).inLoop id = false) (hboundary : ∀ p ∈ info.ports, p.expr ∈ run) :
    ∃ start, run.head? = some start ∧ k.loopBounds id = .ok (start, post.head?) := by
  set off : ExprId → Bool := fun e => !(info.ports.any fun p => decide (p.expr = e)) with hoff
  set tagged : ExprId → Bool := fun e => (k.expr e).inLoop id with htagged
  -- an expression without the tag is not on the boundary, and some expression of the run is
  have hfree : ∀ e, tagged e = false → off e = true := by
    intro e he
    rw [hoff, Bool.not_eq_true', any_eq_false]
    intro p hp hpe
    rw [← of_decide_eq_true hpe] at he
    exact Bool.false_ne_true (he.symm.trans (hrun p.expr (hboundary p hp)))
  have hon : ∃ e ∈ run, off e = false := by
    obtain ⟨p, hp⟩ := exists_mem_of_ne_nil _ hports
    refine ⟨p.expr, hboundary p hp, ?_⟩
    rw [hoff, Bool.not_eq_false', any_eq_true]
    exact ⟨p, hp, decide_eq_true rfl⟩
  obtain ⟨left, first, rest, hleft, hleftoff, hfirst⟩ := exists_first hon
  have hon' : ∃ e ∈ run.reverse, off e = false := by simpa using hon
  obtain ⟨right, last, rest', hright, hrightoff, hlast⟩ := exists_first hon'
  have hpreoff : ∀ e ∈ pre, off e = true := fun e he => hfree e (hpre e he)
  have hpostoff : ∀ e ∈ post.reverse, off e = true := fun e he =>
    hfree e (hpost e (mem_reverse.1 he))
  have hfront : k.order = (pre ++ left) ++ first :: (rest ++ post) := by
    rw [horder, hleft]
    simp
  have hback : k.order.reverse = (post.reverse ++ right) ++ last :: (rest' ++ pre.reverse) := by
    rw [horder, reverse_append, reverse_append, hright]
    simp
  have hbefore : k.order.takeWhile off = pre ++ left := by
    rw [hfront, takeWhile_append_of_pos fun e he => ?_, takeWhile_cons, hfirst]
    · simp
    · exact (mem_append.1 he).elim (hpreoff e) (hleftoff e)
  have hdrop : k.order.dropWhile off = first :: (rest ++ post) := by
    rw [hfront, dropWhile_append_of_pos fun e he => ?_, dropWhile_cons, hfirst]
    · simp
    · exact (mem_append.1 he).elim (hpreoff e) (hleftoff e)
  have hafter : k.order.reverse.takeWhile off = post.reverse ++ right := by
    rw [hback, takeWhile_append_of_pos fun e he => ?_, takeWhile_cons, hlast]
    · simp
    · exact (mem_append.1 he).elim (hpostoff e) (hrightoff e)
  have hlefttag : ∀ e ∈ left.reverse, tagged e = true := fun e he =>
    hrun e (by rw [hleft]; exact mem_append_left _ (mem_reverse.1 he))
  have hrighttag : ∀ e ∈ right.reverse, tagged e = true := fun e he =>
    hrun e (mem_reverse.1 (by rw [hright]; exact mem_append_left _ (mem_reverse.1 he)))
  have hstop : ∀ {es : List ExprId}, (∀ e ∈ es, tagged e = false) → es.takeWhile tagged = [] ∧
      es.dropWhile tagged = es := by
    intro es hes
    cases es with
    | nil => exact ⟨rfl, rfl⟩
    | cons e es => simp [hes e mem_cons_self]
  have hstart : ((k.order.takeWhile off).reverse.takeWhile tagged).getLast? = left.head? := by
    rw [hbefore, reverse_append, takeWhile_append_of_pos hlefttag,
      (hstop fun e he => hpre e (mem_reverse.1 he)).1, append_nil, getLast?_reverse]
  have hend : ((k.order.reverse.takeWhile off).reverse.dropWhile tagged).head? = post.head? := by
    rw [hafter, reverse_append, reverse_reverse, dropWhile_append_of_pos hrighttag,
      (hstop hpost).2]
  refine ⟨left.head?.getD first, ?_, ?_⟩
  · rw [hleft, head?_append]
    cases left <;> rfl
  · unfold Kernel.loopBounds
    have hask : k.loopInfo id = .ok info := LoopTable.info_eq_ok.2 hinfo
    have hempty : info.ports.isEmpty = false := by
      rw [Bool.eq_false_iff, Ne, List.isEmpty_iff]
      exact hports
    simp only [hask, bind, Except.bind, hempty, Bool.false_eq_true, if_false]
    rw [show (k.order.dropWhile fun e => !(info.ports.any fun p => decide (p.expr = e))) = _ from hdrop]
    exact congrArg Except.ok (Prod.ext (by rw [← hstart]) hend)

/-! ## Parameters while markers are inserted -/

namespace Markers

variable {k' : Kernel}

theorem mapM_congr {α β : Type} {f g : α → Except Failure β} {xs : List α}
    (h : ∀ a ∈ xs, f a = g a) :
    xs.mapM f = xs.mapM g := by
  induction xs with
  | nil => rfl
  | cons a xs ih =>
    rw [mapM_cons, mapM_cons, h a mem_cons_self,
      ih fun b hb => h b (mem_cons_of_mem a hb)]

section

variable (h : k'.expr p.expr = k.expr p.expr)

include h

theorem tensorAt_congr : k'.tensorAt p = k.tensorAt p := by
  rw [Kernel.tensorAt, Kernel.tensorAt, h]

theorem iteratedDim_congr (dim : Amount) : iteratedDim k' p dim = iteratedDim k p dim := by
  rw [iteratedDim, iteratedDim, tensorAt_congr h, h]

theorem iteratedSize_congr (dim : Amount) : iteratedSize k' dim p = iteratedSize k dim p := by
  rw [iteratedSize, iteratedSize, iteratedDim_congr h, tensorAt_congr h]

theorem ptrIncrement_congr (dim widest : Amount) (layout : List Int) :
    ptrIncrement k' dim widest layout p = ptrIncrement k dim widest layout p := by
  rw [ptrIncrement, ptrIncrement, iteratedDim_congr h, tensorAt_congr h, h]

end

theorem ptrIncrements_congr (h : ∀ p ∈ ps, k'.expr p.expr = k.expr p.expr) (dim : Amount) :
    ptrIncrements k' dim ps = ptrIncrements k dim ps := by
  cases ps with
  | nil => rfl
  | cons p ps =>
    have hp := h p mem_cons_self
    have hsizes : ps.mapM (iteratedSize k' dim) = ps.mapM (iteratedSize k dim) :=
      mapM_congr fun q hq => iteratedSize_congr (h q (mem_cons_of_mem p hq)) dim
    have hsteps : ∀ widest layout, (p :: ps).mapM (ptrIncrement k' dim widest layout) =
        (p :: ps).mapM (ptrIncrement k dim widest layout) := fun widest layout =>
      mapM_congr fun q hq => ptrIncrement_congr (h q hq) dim widest layout
    simp only [ptrIncrements, tensorAt_congr hp, iteratedSize_congr hp, hsizes, hsteps]

/-- One entry is kept or left out. -/
theorem of_keepEntry_ok {entry : Port} (h : keepEntry k acc entry = .ok acc') :
    acc'.2 = acc.2 ∨ acc'.2 = acc.2 ++ [entry] := by
  unfold keepEntry at h
  dsimp only at h
  split at h
  · cases h
    exact .inl rfl
  · obtain ⟨t, -, h⟩ := of_except_bind_ok h
    split at h
    · cases h
      exact .inr rfl
    · split at h
      · cases h
        exact .inl rfl
      · cases h
        exact .inr rfl

theorem of_foldlM_keepEntry_ok (h : entries.foldlM (keepEntry k) acc = .ok acc') :
    ∃ kept, acc'.2 = acc.2 ++ kept ∧ Sublist kept entries := by
  induction entries generalizing acc with
  | nil =>
    cases h
    exact ⟨[], by simp, .slnil⟩
  | cons q qs ih =>
    rw [foldlM_cons] at h
    obtain ⟨mid, hstep, hrest⟩ := of_except_bind_ok h
    obtain ⟨kept, hkept, hsub⟩ := ih hrest
    rcases of_keepEntry_ok hstep with hmid | hmid
    · exact ⟨kept, by rw [hkept, hmid], hsub.cons q⟩
    · exact ⟨q :: kept, by rw [hkept, hmid, append_assoc]; rfl, hsub.cons_cons q⟩

/-- The entries that step a pointer are entries. -/
theorem steppedEntries_sublist {kept : List Port} (h : steppedEntries k entries = .ok kept) :
    Sublist kept entries := by
  unfold steppedEntries at h
  cases hfold : entries.foldlM (keepEntry k) ([], []) with
  | error f =>
    rw [hfold] at h
    cases h
  | ok acc =>
    rw [hfold] at h
    cases h
    obtain ⟨kept, hkept, hsub⟩ := of_foldlM_keepEntry_ok hfold
    show Sublist acc.2 entries
    rw [hkept]
    exact hsub

theorem keepEntry_congr (h : k'.expr p.expr = k.expr p.expr)
    (hproducer : ∀ t, k.tensorAt p = .ok t → (k'.producers t.id).head? = (k.producers t.id).head?)
    (acc : List ExprId × List Port) : keepEntry k' acc p = keepEntry k acc p := by
  unfold keepEntry
  rw [tensorAt_congr h, h]
  cases ht : k.tensorAt p with
  | error f => rfl
  | ok t => simp only [bind, Except.bind, hproducer t ht]

theorem steppedEntries_congr (h : ∀ p ∈ entries, k'.expr p.expr = k.expr p.expr)
    (hproducer : ∀ p ∈ entries, ∀ t, k.tensorAt p = .ok t → (k'.producers t.id).head? = (k.producers t.id).head?) :
    steppedEntries k' entries = steppedEntries k entries := by
  have hfold : ∀ acc, entries.foldlM (keepEntry k') acc = entries.foldlM (keepEntry k) acc := by
    induction entries with
    | nil => exact fun _ => rfl
    | cons q qs ih =>
      intro acc
      have htail := ih (fun p hp => h p (mem_cons_of_mem q hp))
        fun p hp => hproducer p (mem_cons_of_mem q hp)
      rw [foldlM_cons, foldlM_cons,
        keepEntry_congr (h q mem_cons_self) (hproducer q mem_cons_self)]
      exact congrArg _ (funext htail)
  rw [steppedEntries, steppedEntries, hfold]

theorem steppedExits_congr {exits : List Port} (h : ∀ p ∈ exits, k'.expr p.expr = k.expr p.expr) :
    steppedExits k' exits = steppedExits k exits :=
  filter_congr fun p hp => by rw [h p hp]

/-- The parameters of a loop depend on the expressions of its boundary and on what produces its
    entries. -/
theorem loopParams_congr (h : ∀ p ∈ info.ports, k'.expr p.expr = k.expr p.expr)
    (hproducer : ∀ p ∈ info.entries, ∀ t, k.tensorAt p = .ok t → (k'.producers t.id).head? = (k.producers t.id).head?)
    (id : LoopId) (outer : Bool) : loopParams k' id info outer = loopParams k id info outer := by
  have hentries := steppedEntries_congr (fun p hp => h p (mem_append_left _ hp)) hproducer
  have hexits := steppedExits_congr fun p hp => h p (mem_append_right _ hp)
  unfold loopParams
  rw [hentries, hexits]
  cases hkept : steppedEntries k info.entries with
  | error f => rfl
  | ok kept =>
    have hports : ∀ p ∈ kept ++ steppedExits k info.exits, k'.expr p.expr = k.expr p.expr := by
      intro p hp
      rcases mem_append.1 hp with hp | hp
      · exact h p (mem_append_left _ ((steppedEntries_sublist hkept).subset hp))
      · exact h p (mem_append_right _ (mem_of_mem_filter hp))
    simp only [bind, Except.bind, ptrIncrements_congr hports,
      mapM_congr fun p hp => tensorAt_congr (hports p hp)]

end Markers

/-! ## Inserting the markers of one loop -/

namespace Markers

/-- The parts of loop parameters. -/
theorem of_loopParams_ok {outer : Bool} (h : loopParams k id info outer = .ok (l, operands)) :
    ∃ entries steps sizes, steppedEntries k info.entries = .ok entries ∧
      ptrIncrements k info.dim (entries ++ steppedExits k info.exits) = .ok steps ∧
      (entries ++ steppedExits k info.exits).mapM k.tensorAt = .ok operands ∧
      l = { id
            workAmount := info.workAmount
            increment := info.increment
            ptrIncrements := steps
            finalOffsets := finalOffsets info.workAmount steps
            elementSizes := sizes
            numEntries := Int64.ofNat entries.length
            numExits := Int64.ofNat (steppedExits k info.exits).length
            hasOuterLoop := outer } := by
  unfold loopParams at h
  obtain ⟨entries, hentries, h⟩ := of_except_bind_ok h
  obtain ⟨steps, hsteps, h⟩ := of_except_bind_ok h
  obtain ⟨operands', hoperands, h⟩ := of_except_bind_ok h
  obtain ⟨sizes, -, h⟩ := of_except_bind_ok h
  cases h
  exact ⟨entries, steps, sizes, hentries, hsteps, hoperands, rfl⟩

end Markers

/-- A closing marker keeps the flag that its parameters were read with. -/
theorem Expr.Ends.hasOuterLoop {l' : LoopParams} {outer : Bool} (h : e.Ends k l outer)
    (hl : e.loop = some l') :
    l'.hasOuterLoop = outer := by
  obtain ⟨hloop, info, operands, -, -, hparams, -⟩ := h
  obtain rfl : l = l' := Option.some.inj (hloop.symm.trans hl)
  obtain ⟨_, _, _, -, -, -, hl⟩ := Markers.of_loopParams_ok hparams
  exact congrArg LoopParams.hasOuterLoop hl

namespace Markers

theorem length_ptrIncrements {dim : Amount} {steps : List Amount}
    (h : ptrIncrements k dim ps = .ok steps) :
    steps.length = ps.length := by
  cases ps with
  | nil =>
    cases h
    rfl
  | cons p ps =>
    obtain ⟨t, -, h⟩ := of_except_bind_ok h
    obtain ⟨size, -, h⟩ := of_except_bind_ok h
    obtain ⟨sizes, -, h⟩ := of_except_bind_ok h
    exact (forall₂_of_mapM_ok h).length_eq.symm

/-- What steps a pointer stands at the boundary of its loop. -/
theorem mem_ports (h : steppedEntries k info.entries = .ok entries)
    (hp : p ∈ entries ++ steppedExits k info.exits) :
    p ∈ info.ports := by
  rcases mem_append.1 hp with hp | hp
  · exact mem_append_left _ ((steppedEntries_sublist h).subset hp)
  · exact mem_append_right _ (mem_of_mem_filter hp)

/-- Every operand of a loop stands at its boundary. -/
theorem mem_operands {outer : Bool} (h : loopParams k id info outer = .ok (l, operands))
    (ht : t ∈ operands) :
    ∃ p ∈ info.ports, k.tensorAt p = .ok t := by
  obtain ⟨entries, steps, sizes, hentries, -, hoperands, -⟩ := of_loopParams_ok h
  obtain ⟨p, hp, hat⟩ := of_mem_mapM_ok hoperands ht
  exact ⟨p, mem_ports hentries hp, hat⟩

/-- A tensor at a port is an operand of the port's expression. -/
theorem of_tensorAt_ok (h : k.tensorAt p = .ok t) : t ∈ (k.expr p.expr).inputs ∨
    t ∈ (k.expr p.expr).outputs := by
  unfold Kernel.tensorAt Expr.operand at h
  cases hs : p.side with
  | input =>
    rw [hs] at h
    obtain ⟨n, -, hn⟩ := of_fetch_ok h
    exact .inl (mem_of_getElem? hn)
  | output =>
    rw [hs] at h
    obtain ⟨n, -, hn⟩ := of_fetch_ok h
    exact .inr (mem_of_getElem? hn)

/-- The loop has a boundary, and its parameters can be read off it. -/
def Insertable (k : Kernel) (id : LoopId) : Prop :=
  ∃ info, k.loops.get? id = some info ∧ info.ports ≠ [] ∧
    ∀ outer, ∃ l operands, loopParams k id info outer = .ok (l, operands)

/-- Is the expression one whose loops are materialized when it is visited? -/
def visited (x : Expr) : Bool := !(x.kind.isMarker || x.kind = .buffer || x.kind.isInterface)

/-- Some loops of a kernel were materialized, each after the loops around it. -/
structure Marked (k k' : Kernel) (inserted : List LoopId) (c : Code) : Prop where
  lists : k'.Lists c.flatten
  nested : c.Nested c.flatten
  ops : c.ops = k.sequence
  marks : c.Marks k inserted []
  markers : ∀ x ∈ c.flatten, x.kind.isMarker = true → ∀ id ∈ LoopId.loops x.loopIds, id ∈ inserted
  around : ∀ x ∈ k.sequence, ∀ outer id inner, x.loopIds = outer ++ id :: inner → id ∈ inserted →
    ∀ o ∈ LoopId.loops outer, o ∈ inserted
  real : ∀ id ∈ inserted, id.isSentinel = false
  known : ∀ id ∈ inserted, (k.loops.get? id).isSome
  names : c.names.Perm inserted
  once : inserted.Nodup
  needed : ∀ id ∈ inserted, ∃ x ∈ k.sequence, visited x = true ∧ id ∈ x.loopIds
  loops : k'.loops = k.loops
  config : k'.config = k.config
  produced : ∃ more, k'.produced = k.produced ++ more ∧ ∀ l ∈ more, k.nextTensor ≤ l.tensor
  next : k.nextTensor ≤ k'.nextTensor

namespace Marked

variable {k' : Kernel} {inserted : List LoopId} {c : Code} {y : Expr}
  {outer outer' inner inner' : List LoopId}
  (hm : Marked k k' inserted c)

include hm

theorem mem_flatten (hy : y ∈ k.sequence) : y ∈ c.flatten :=
  Code.mem_flatten_of_mem_ops (hm.ops ▸ hy)

/-- Which loops are materialized around an expression, before and after one of its own is. -/
theorem filter_eq (hn : k.WellNested) (hx : x ∈ k.sequence)
    (hlevels : x.loopIds = outer ++ id :: inner) (hid : k.HasLoop id) (hnew : id ∉ inserted)
    (houter : ∀ o ∈ LoopId.loops outer, o ∈ inserted) :
    x.loopIds.filter (inserted.contains ·) = LoopId.loops outer ∧
      x.loopIds.filter ((id :: inserted).contains ·) = LoopId.loops outer ++ [id] := by
  obtain ⟨hnotouter, hnotinner⟩ := hn.not_mem hx hlevels hid
  have hout : ∀ i ∈ outer, inserted.contains i = !i.isSentinel := by
    intro i hi
    cases hs : i.isSentinel with
    | true =>
      rw [Bool.not_true, Bool.eq_false_iff, Ne, contains_iff_mem]
      intro hmem
      exact Bool.false_ne_true ((hm.real i hmem).symm.trans hs)
    | false =>
      rw [Bool.not_false, contains_iff_mem]
      exact houter i (LoopId.mem_loops.2 ⟨hi, hs⟩)
  -- a loop further in is materialized after this one
  have hinn : ∀ i ∈ inner, i ∉ inserted := by
    intro i hi hmem
    obtain ⟨left, right, rfl⟩ := append_of_mem hi
    exact hnew (hm.around x hx (outer ++ id :: left) i right (by simp [hlevels]) hmem id
      (LoopId.mem_loops.2 ⟨by simp, hid.1⟩))
  have houterOld : outer.filter (inserted.contains ·) = LoopId.loops outer := filter_congr hout
  have hinnerOld : inner.filter (inserted.contains ·) = [] := by
    rw [filter_eq_nil_iff]
    intro i hi
    simpa using hinn i hi
  have houterNew : outer.filter ((id :: inserted).contains ·) = outer.filter (inserted.contains ·) := by
    apply filter_congr
    intro i hi
    have hne : i ≠ id := fun h => hnotouter (h ▸ hi)
    simp [hne]
  have hinnerNew : inner.filter ((id :: inserted).contains ·) = inner.filter (inserted.contains ·) := by
    apply filter_congr
    intro i hi
    have hne : i ≠ id := fun h => hnotinner (h ▸ hi)
    simp [hne]
  rw [hlevels, filter_append, filter_append, filter_cons, filter_cons, houterNew,
    hinnerNew, houterOld, hinnerOld]
  constructor
  · simp [hnew]
  · simp

/-- The expressions of a loop that has no markers yet stand in a row and can be wrapped. -/
theorem exists_run (hn : k.WellNested) (hx : x ∈ k.sequence)
    (hlevels : x.loopIds = outer ++ id :: inner) (hid : k.HasLoop id) (hnew : id ∉ inserted)
    (houter : ∀ o ∈ LoopId.loops outer, o ∈ inserted) :
    ∃ pre run post, c.flatten = pre ++ run ++ post ∧ run = k.sequence.filter (·.inLoop id) ∧ run ≠ [] ∧
      (∀ y ∈ pre, y.inLoop id = false) ∧ (∀ y ∈ post, y.inLoop id = false) ∧
      ∀ b e, ∃ c', Code.Wraps b e run c c' ∧ c'.flatten = pre ++ b :: (run ++ e :: post) := by
  have htag : x.inLoop id = true := contains_iff_mem.2 (by simp [hlevels])
  obtain ⟨before, run, after, hsplit, hbefore, hrun, hafter⟩ :=
    (hn.together id hid).split
  have hall : run = k.sequence.filter (·.inLoop id) := by
    rw [hsplit, filter_append, filter_append, filter_eq_self.2 hrun,
      filter_eq_nil_iff.2 fun y hy => by simp [hbefore y hy],
      filter_eq_nil_iff.2 fun y hy => by simp [hafter y hy]]
    simp
  have hxrun : x ∈ run := hall ▸ mem_filter.2 ⟨hx, htag⟩
  have hne : run ≠ [] := ne_nil_of_mem hxrun
  have hflatNodup : c.flatten.Nodup := List.Nodup.of_map _ hm.lists.nodup
  have hopsNodup : c.ops.Nodup := hflatNodup.sublist c.ops_sublist
  have haround : ∀ y ∈ run, y.loopIds.filter (inserted.contains ·) = LoopId.loops outer := by
    intro y hy
    obtain ⟨hyseq, hytag⟩ := mem_filter.1 (hall ▸ hy)
    obtain ⟨outer', inner', hlevels'⟩ := append_of_mem (contains_iff_mem.1 hytag)
    have hloops := (hn.level x hx y hyseq id _ _ _ _ hid hlevels hlevels').2
    rw [(hm.filter_eq hn hyseq hlevels' hid hnew (hloops ▸ houter)).1, hloops]
  obtain ⟨pre, post, hflat, hwrap⟩ := hm.marks.exists_wraps hopsNodup (fun y hy => hm.ops ▸ hy)
    (hm.ops.trans hsplit) hne haround
  -- whatever the loop tags lies in its run, and no marker is tagged with it
  have hother : ∀ y ∈ c.flatten, y ∉ run → y.inLoop id = false := by
    intro y hy hyrun
    rw [Bool.eq_false_iff, Ne, Expr.inLoop, contains_iff_mem]
    intro hmem
    cases hkind : y.kind.isMarker with
    | true => exact hnew (hm.markers y hy hkind id (LoopId.mem_loops.2 ⟨hmem, hid.1⟩))
    | false =>
      have hyseq : y ∈ k.sequence := hm.ops ▸ hm.nested.mem_ops hy hkind
      exact hyrun (hall ▸ mem_filter.2 ⟨hyseq, contains_iff_mem.2 hmem⟩)
  rw [hflat] at hflatNodup
  refine ⟨pre, run, post, hflat, hall, hne, fun y hy => ?_, fun y hy => ?_, hwrap⟩
  · refine hother y (by simp [hflat, hy]) fun hyrun => ?_
    exact disjoint_of_nodup_append (nodup_append.1 hflatNodup).1 hy hyrun
  · refine hother y (by simp [hflat, hy]) fun hyrun => ?_
    exact disjoint_of_nodup_append hflatNodup (mem_append_right _ hyrun) hy

/-- The range that the pass finds for a loop. -/
theorem loopBounds_eq (hn : k.WellNested) (hx : x ∈ k.sequence) (htag : id ∈ x.loopIds)
    (hinfo : k.loops.get? id = some info) (hports : info.ports ≠ []) {run : List Expr}
    (hflat : c.flatten = pre ++ run ++ post) (hall : run = k.sequence.filter (·.inLoop id))
    (hpre : ∀ y ∈ pre, y.inLoop id = false) (hpost : ∀ y ∈ post, y.inLoop id = false) :
    ∃ start rest, run = start :: rest ∧ k'.loopBounds id = .ok (start.id, post.head?.map Expr.id) := by
  have hread : ∀ y ∈ c.flatten, k'.expr y.id = y := hm.lists.read
  have horder : k'.order = pre.map Expr.id ++ run.map Expr.id ++ post.map Expr.id := by
    rw [hm.lists.order, hflat, map_append, map_append]
  obtain ⟨start, hstart, hbounds⟩ := Kernel.loopBounds_eq (hm.loops ▸ hinfo) hports horder
    (by
      intro e he
      obtain ⟨y, hy, rfl⟩ := mem_map.1 he
      rw [hread y (by simp [hflat, hy]), hpre y hy])
    (by
      intro e he
      obtain ⟨y, hy, rfl⟩ := mem_map.1 he
      rw [hread y (by simp [hflat, hy])]
      rw [hall] at hy
      exact (mem_filter.1 hy).2)
    (by
      intro e he
      obtain ⟨y, hy, rfl⟩ := mem_map.1 he
      rw [hread y (by simp [hflat, hy]), hpost y hy])
    (by
      intro p hp
      obtain ⟨y, hy, hyp, hytag⟩ := hn.boundary x hx id htag info hinfo p hp
      exact hyp ▸ mem_map_of_mem (hall ▸ mem_filter.2 ⟨hy, hytag⟩))
  cases run with
  | nil => cases hstart
  | cons y ys =>
    cases hstart
    exact ⟨y, ys, rfl, by rw [hbounds, head?_map]⟩

/-- The parameters that the pass reads are those of the kernel without markers. -/
theorem loopParams_eq (hk : k.Unmarked) (hn : k.WellNested) (hx : x ∈ k.sequence)
    (htag : id ∈ x.loopIds) (hinfo : k.loops.get? id = some info) (flag : Bool) :
    loopParams k' id info flag = loopParams k id info flag := by
  have hports : ∀ p ∈ info.ports, ∃ y ∈ k.sequence, y.id = p.expr := fun p hp => by
    obtain ⟨y, hy, hyp, -⟩ := hn.boundary x hx id htag info hinfo p hp
    exact ⟨y, hy, hyp⟩
  refine loopParams_congr (fun p hp => ?_) (fun p hp t ht => ?_) id flag
  · obtain ⟨y, hy, hyp⟩ := hports p hp
    rw [← hyp, hk.lists.read y hy, hm.lists.read y (hm.mem_flatten hy)]
  · obtain ⟨y, hy, hyp⟩ := hports p (mem_append_left _ hp)
    have hknown : t.id < k.nextTensor := by
      have hmem := of_tensorAt_ok ht
      rw [← hyp, hk.lists.read y hy] at hmem
      exact hk.lists.known y hy t hmem
    obtain ⟨more, hmore, hfresh⟩ := hm.produced
    have hnone : more.filter (fun l => decide (l.tensor = t.id)) = [] := by
      rw [filter_eq_nil_iff]
      intro l hl
      rw [decide_eq_true_eq]
      exact Nat.ne_of_gt (Nat.lt_of_lt_of_le hknown (hfresh l hl))
    rw [Kernel.producers, Kernel.producers, hmore, filter_append, hnone, append_nil]

end Marked

/-- The tensor that ties the next two markers. -/
def tie (k : Kernel) : Tensor := { TensorType.empty with id := k.nextTensor }

/-- The levels of markers that belong to the loops outside a level only. -/
def outerLevels (x : Expr) (level : Nat) : List LoopId :=
  x.loopIds.zipIdx.map fun (l, i) => if i < level then l else LoopId.null

/-- The opening marker of a loop. -/
def opening (x : Expr) (level : Nat) (tie : Tensor) (id : ExprId) : Expr :=
  { id, kind := .loopBegin, op := "LoopBegin", inputs := [], outputs := [tie]
    loopIds := outerLevels x level, hasLevels := x.hasLevels }

/-- The closing marker of a loop. -/
def closing (x : Expr) (level : Nat) (tie : Tensor) (operands : List Tensor) (l : LoopParams)
    (id : ExprId) :
    Expr :=
  { id, kind := .loopEnd, op := "LoopEnd", inputs := operands ++ [tie], outputs := []
    loopIds := outerLevels x level, hasLevels := x.hasLevels, loop := some l }

/-- What inserting the markers of a loop does to the list of a kernel, given what is asked on the
    way. -/
theorem insert_run (level : Nat) {outer : Bool} {start : Expr} {rest : List Expr}
    (h : k.Lists (pre ++ start :: rest ++ post)) (hinfo : k.loopInfo id = .ok info)
    (hbounds : k.loopBounds id = .ok (start.id, post.head?.map Expr.id))
    (hparams : loopParams k id info outer = .ok (l, operands)) (hoperands : ∀ t ∈ operands, t.id < k.nextTensor) :
    ∃ b e k', insert id level outer k = .ok () k' ∧ k'.Lists (pre ++ b :: (start :: rest ++ e :: post)) ∧
      b = opening start level (tie k) b.id ∧ e = closing start level (tie k) operands l e.id ∧
      k'.loops = k.loops ∧ k'.config = k.config ∧ k'.nextTensor = k.nextTensor + 1 ∧
      ∃ port, k'.produced = k.produced ++ [⟨(tie k).id, port⟩] := by
  -- the tie has a fresh name; the two markers go before the run and before what follows it
  let k0 : Kernel := { k with nextTensor := k.nextTensor + 1 }
  let b := opening start level (tie k) k.exprs.size
  let k1 := k0.added b (some start.id)
  let e := closing start level (tie k) operands l k1.exprs.size
  let k2 := k1.added e (post.head?.map Expr.id)
  have hread : k.expr start.id = start := h.read start (by simp)
  have hlists0 : k0.Lists (pre ++ (start :: rest ++ post)) := by
    rw [← append_assoc]
    exact h.congr rfl rfl rfl (Nat.le_refl _) (Nat.le_succ _) fun _ _ => rfl
  obtain ⟨hopen, hlists1⟩ := hlists0.added (y := b) rfl (by
    rintro t (ht | ht)
    · cases ht
    · rw [mem_singleton.1 ht]
      exact Nat.lt_succ_self _)
  have hlists1' : k1.Lists ((pre ++ b :: start :: rest) ++ post) := by
    rw [append_assoc, cons_append]
    exact hlists1
  obtain ⟨hclose, hlists2⟩ := hlists1'.added (y := e) rfl (by
    rintro t (ht | ht)
    · rcases mem_append.1 ht with ht | ht
      · exact Nat.lt_succ_of_lt (hoperands t ht)
      · rw [mem_singleton.1 ht]
        exact Nat.lt_succ_self _
    · cases ht)
  refine ⟨b, e, k2, ?_, ?_, rfl, rfl, rfl, rfl, rfl, ⟨b.id, .output, 0⟩, ?_⟩
  · unfold insert
    rw [bind_run_ok (Edit.ask_run_ok hinfo), bind_run_ok (Edit.ask_run_ok hbounds)]
    dsimp only
    rw [bind_run_ok (Edit.ask_run_ok hparams)]
    dsimp only
    rw [get_bind_run, hread]
    exact (bind_run_ok hopen).trans hclose
  · rw [append_assoc, cons_append] at hlists2
    exact hlists2
  · have hproduced2 : k2.produced = k1.produced ++ [] := Kernel.added_produced _ rfl
    have hproduced1 : k1.produced = k0.produced ++ [⟨(tie k).id, ⟨b.id, .output, 0⟩⟩] :=
      Kernel.added_produced _ rfl
    rw [hproduced2, hproduced1, append_nil]

/-- The markers of a loop are tagged with the loops around it. -/
theorem loops_outerLevels {outer inner : List LoopId} (h : x.loopIds = outer ++ inner) :
    LoopId.loops (outerLevels x outer.length) = LoopId.loops outer := by
  have hleft : (outer.zipIdx.map fun p => if p.2 < outer.length then p.1 else LoopId.null) = outer := by
    have hmap : (outer.zipIdx.map fun p => if p.2 < outer.length then p.1 else LoopId.null) =
        outer.zipIdx.map Prod.fst := by
      apply map_congr_left
      intro p hp
      obtain ⟨hlt, -⟩ := List.getElem?_eq_some_iff.1 (mem_zipIdx_iff_getElem?.1 hp)
      rw [if_pos hlt]
    rw [hmap, zipIdx_map_fst]
  have hright : LoopId.loops ((inner.zipIdx outer.length).map
      fun p => if p.2 < outer.length then p.1 else LoopId.null) = [] := by
    rw [LoopId.loops, filter_eq_nil_iff]
    intro l hl
    obtain ⟨p, hp, rfl⟩ := mem_map.1 hl
    have hge : outer.length ≤ p.2 := by
      have hle := le_snd_of_mem_zipIdx hp
      omega
    rw [if_neg (Nat.not_lt.2 hge)]
    decide
  rw [outerLevels, h, zipIdx_append, map_append, LoopId.loops_append]
  simp only [Nat.zero_add] at hleft hright ⊢
  rw [hleft, hright, append_nil]

/-- New markers around the run of a loop are tied, and the markers that are there stay tied. -/
theorem Marked.nested_wraps {k' : Kernel} {inserted : List LoopId} {c c' : Code}
    (hm : Marked k k' inserted c)
    (hk : k.Unmarked) {b : Expr} {run : List Expr} {tie : Tensor} (hwrap : Code.Wraps b e run c c')
    (hcases : ∀ x ∈ c'.flatten, x = b ∨ x = e ∨ x ∈ c.flatten)
    (hb : b.kind = .loopBegin ∧ b.inputs = [] ∧ b.outputs = [tie])
    (he : e.kind = .loopEnd ∧ e.inputs = operands ++ [tie] ∧ e.outputs = []) (htie : tie.id = k'.nextTensor)
    (hoperands : ∀ t ∈ operands, ∃ y ∈ k.sequence, t ∈ y.inputs ∨ t ∈ y.outputs) : c'.Nested c'.flatten := by
  obtain ⟨hbk, hbin, hbout⟩ := hb
  obtain ⟨hek, hein, heout⟩ := he
  refine hwrap.nested (hm.nested.imp fun b0 hb0 e0 he0 htied => ?_) ?_
  · -- an operand of the new loop belongs to an expression that is no marker
    have hopens := htied.opens
    have hcloses := htied.closes
    obtain ⟨t0, hout0, hlast0, hmakes, hreads⟩ := htied.tie
    have htie0 : t0.id ≠ tie.id := by
      have hlt := hm.lists.known b0 hb0 t0 (.inr (by simp [hout0]))
      exact Nat.ne_of_lt (htie ▸ hlt)
    refine htied.frame fun t hout hlast x hx => ?_
    obtain rfl : t = t0 := by simpa using hout.symm.trans hout0
    rcases hcases x hx with rfl | rfl | hx
    · refine .inr ⟨fun u hu => ?_, fun u hu => ?_⟩
      · rw [hbout, mem_singleton] at hu
        exact hu ▸ htie0.symm
      · rw [hbin] at hu
        cases hu
    · refine .inr ⟨fun u hu => ?_, fun u hu hid => ?_⟩
      · rw [heout] at hu
        cases hu
      · rw [hein, mem_append, mem_singleton] at hu
        rcases hu with hu | rfl
        · obtain ⟨y, hy, hyu⟩ := hoperands u hu
          have hkind := hk.plain y hy
          rcases hyu with hyu | hyu
          · rw [hreads y (hm.mem_flatten hy) u hyu hid, hcloses] at hkind
            cases hkind
          · rw [hmakes y (hm.mem_flatten hy) u hyu hid, hopens] at hkind
            cases hkind
        · exact htie0 hid.symm
    · exact .inl hx
  · refine ⟨hbk, hek, tie, hbout, by simp [hein], fun x hx u hu hid => ?_, fun x hx u hu hid => ?_⟩
    · rcases hcases x hx with rfl | rfl | hx
      · rfl
      · rw [heout] at hu
        cases hu
      · have hlt := hm.lists.known x hx u (.inr hu)
        exact absurd hid (Nat.ne_of_lt (htie ▸ hlt))
    · rcases hcases x hx with rfl | rfl | hx
      · rw [hbin] at hu
        cases hu
      · rfl
      · have hlt := hm.lists.known x hx u (.inl hu)
        exact absurd hid (Nat.ne_of_lt (htie ▸ hlt))

section Step

variable {k' : Kernel} {inserted : List LoopId} {c : Code} {outer inner : List LoopId}

/-- Inserting the markers of a loop, the loops around it being there. -/
theorem Marked.insert (hm : Marked k k' inserted c) (hk : k.Unmarked) (hn : k.WellNested)
    (hx : x ∈ k.sequence) (hv : visited x = true) (hlevels : x.loopIds = outer ++ id :: inner)
    (hid : id.isSentinel = false) (hnew : id ∉ inserted) (houter : ∀ o ∈ LoopId.loops outer, o ∈ inserted)
    (hins : Insertable k id) :
    ∃ k'' c', Markers.insert id outer.length (LoopId.endInLoop outer) k' = .ok () k'' ∧
      Marked k k'' (id :: inserted) c' := by
  obtain ⟨info, hinfo, hports, hparams⟩ := hins
  obtain ⟨l, operands, hl⟩ := hparams (LoopId.endInLoop outer)
  obtain rfl : l.id = id := by
    obtain ⟨_, _, _, -, -, -, rfl⟩ := of_loopParams_ok hl
    rfl
  have htag : l.id ∈ x.loopIds := by simp [hlevels]
  have hloop : k.HasLoop l.id := ⟨hid, by simp [hinfo]⟩
  obtain ⟨pre, run, post, hflat, hall, hne, hpre, hpost, hwrap⟩ :=
    hm.exists_run hn hx hlevels hloop hnew houter
  obtain ⟨start, rest, hrun, hbounds⟩ :=
    hm.loopBounds_eq hn hx htag hinfo hports hflat hall hpre hpost
  have hlevelsOf : ∀ y ∈ run, y ∈ k.sequence ∧ ∃ outer' inner', y.loopIds = outer' ++ l.id :: inner' ∧
      outer'.length = outer.length ∧ LoopId.loops outer' = LoopId.loops outer := by
    intro y hy
    rw [hall] at hy
    obtain ⟨hyseq, hytag⟩ := mem_filter.1 hy
    obtain ⟨outer', inner', hlevels'⟩ := append_of_mem (contains_iff_mem.1 hytag)
    exact ⟨hyseq, outer', inner', hlevels', hn.level x hx y hyseq l.id _ _ _ _ hloop hlevels hlevels'⟩
  have hoperands : ∀ t ∈ operands, ∃ y ∈ k.sequence, t ∈ y.inputs ∨ t ∈ y.outputs := by
    intro t ht
    obtain ⟨p, hp, hpt⟩ := mem_operands hl ht
    obtain ⟨y, hy, hyp, -⟩ := hn.boundary x hx l.id htag info hinfo p hp
    have hmem := of_tensorAt_ok hpt
    rw [← hyp, hk.lists.read y hy] at hmem
    exact ⟨y, hy, hmem⟩
  have hinfo' : k'.loopInfo l.id = .ok info := LoopTable.info_eq_ok.2 (hm.loops ▸ hinfo)
  have hparams' := (hm.loopParams_eq hk hn hx htag hinfo _).trans hl
  obtain ⟨b, e, k'', hinsert, hlists, hb, he, hloops, hconfig, hnext, port, hproduced⟩ :=
    insert_run outer.length (hrun ▸ hflat ▸ hm.lists) hinfo' hbounds hparams' fun t ht => by
      obtain ⟨y, hy, hty⟩ := hoperands t ht
      exact hm.lists.known y (hm.mem_flatten hy) t hty
  obtain ⟨c', hc', hflat'⟩ := hwrap b e
  refine ⟨k'', c', hinsert, ?_⟩
  have htags : LoopId.loops (outerLevels start outer.length) = LoopId.loops outer := by
    obtain ⟨-, outer', inner', hlevels', hlength, hloops'⟩ := hlevelsOf start (by simp [hrun])
    rw [← hlength, loops_outerLevels hlevels', hloops']
  have hcases : ∀ y ∈ c'.flatten, y = b ∨ y = e ∨ y ∈ c.flatten := by
    intro y hy
    simp only [hflat', mem_append, mem_cons] at hy
    simp only [hflat, mem_append]
    tauto
  constructor
  case lists => exact hflat' ▸ hrun ▸ hlists
  case nested =>
    refine hm.nested_wraps hk hc' hcases ?_ ?_ (show (tie k').id = _ from rfl) hoperands
    · rw [hb]
      exact ⟨rfl, rfl, rfl⟩
    · rw [he]
      exact ⟨rfl, rfl, rfl⟩
  case ops => exact hc'.ops_eq.trans hm.ops
  case marks =>
    have hnodup : c.ops.Nodup := (List.Nodup.of_map _ hm.lists.nodup).sublist c.ops_sublist
    have hends : Code.Bounds k (LoopId.loops outer) b e l := by
      rw [hb, he]
      exact ⟨hid, ⟨_, ⟨rfl, info, operands, tie k', hinfo, hl, rfl⟩, x, hx, outer, inner, hlevels, rfl, rfl⟩, htags,
        htags⟩
    refine hc'.marks hne hm.marks hnodup (fun y hy => hm.ops ▸ hy) (fun y hy => ?_) (fun y hy => ?_) hall hends
    · obtain ⟨hyseq, outer', inner', hlevels', -, hloops'⟩ := hlevelsOf y hy
      exact (hm.filter_eq hn hyseq hlevels' hloop hnew (hloops' ▸ houter)).1.trans hloops'
    · obtain ⟨hyseq, outer', inner', hlevels', -, hloops'⟩ := hlevelsOf y hy
      rw [(hm.filter_eq hn hyseq hlevels' hloop hnew (hloops' ▸ houter)).2, hloops']
  case markers =>
    have hnewTags : ∀ i ∈ LoopId.loops (outerLevels start outer.length), i ∈ l.id :: inserted := by
      intro i hi
      exact mem_cons_of_mem _ (houter i (htags ▸ hi))
    intro y hy hkind i hi
    rcases hcases y hy with rfl | rfl | hy
    · rw [hb] at hi
      exact hnewTags i hi
    · rw [he] at hi
      exact hnewTags i hi
    · exact mem_cons_of_mem _ (hm.markers y hy hkind i hi)
  case around =>
    intro y hy outer' i inner' hlevels' hi o ho
    rcases mem_cons.1 hi with rfl | hi
    · rw [(hn.level x hx y hy l.id _ _ _ _ hloop hlevels hlevels').2] at ho
      exact mem_cons_of_mem _ (houter o ho)
    · exact mem_cons_of_mem _ (hm.around y hy outer' i inner' hlevels' hi o ho)
  case real => exact forall_mem_cons.2 ⟨hid, hm.real⟩
  case known => exact forall_mem_cons.2 ⟨by rw [hinfo]; rfl, hm.known⟩
  case names =>
    have hown : e.loop.toList.map LoopParams.id = [l.id] := by
      rw [he]
      rfl
    have hnames := hc'.names_perm
    rw [hown] at hnames
    exact hnames.trans (hm.names.cons l.id)
  case once => exact nodup_cons.2 ⟨hnew, hm.once⟩
  case needed => exact forall_mem_cons.2 ⟨⟨x, hx, hv, htag⟩, hm.needed⟩
  case loops => exact hloops.trans hm.loops
  case config => exact hconfig.trans hm.config
  case produced =>
    obtain ⟨more, hmore, hfresh⟩ := hm.produced
    refine ⟨more ++ [⟨(tie k').id, port⟩], by rw [hproduced, hmore, append_assoc], fun link hlink => ?_⟩
    rcases mem_append.1 hlink with hlink | hlink
    · exact hfresh link hlink
    · rw [mem_singleton.1 hlink]
      exact hm.next
  case next => exact hnext ▸ Nat.le_succ_of_le hm.next

/-- The parameters of a loop are read the same way whether a loop runs it again or not. -/
theorem loopParams_outer (h : loopParams k id info flag = .ok (l, operands)) (flag' : Bool) :
    ∃ l', loopParams k id info flag' = .ok (l', operands) := by
  unfold loopParams at h ⊢
  obtain ⟨entries, hentries, h⟩ := of_except_bind_ok h
  obtain ⟨steps, hsteps, h⟩ := of_except_bind_ok h
  obtain ⟨operands', hoperands, h⟩ := of_except_bind_ok h
  obtain ⟨sizes, hsizes, h⟩ := of_except_bind_ok h
  cases h
  rw [hentries]
  simp only [bind, Except.bind, hsteps, hoperands, hsizes]
  exact ⟨_, rfl⟩

theorem of_insert_ok {level : Nat} {k'' : Kernel}
    (h : Markers.insert id level flag k' = .ok () k'') :
    ∃ info, k'.loops.get? id = some info ∧ info.ports ≠ [] ∧
      ∃ l operands, loopParams k' id info flag = .ok (l, operands) := by
  unfold Markers.insert at h
  obtain ⟨info, k1, hask, h1⟩ := of_bind_run_ok h
  obtain ⟨hinfo, hk1⟩ := Edit.of_ask_run_ok hask
  obtain ⟨⟨start, stop⟩, k2, hask, h2⟩ := of_bind_run_ok h1
  obtain ⟨hbounds, hk2⟩ := Edit.of_ask_run_ok hask
  obtain ⟨⟨l, operands⟩, k3, hask, -⟩ := of_bind_run_ok h2
  obtain ⟨hparams, -⟩ := Edit.of_ask_run_ok hask
  rw [hk2, hk1] at hparams
  rw [hk1] at hbounds
  refine ⟨info, LoopTable.info_eq_ok.1 hinfo, fun hports => ?_, l, operands, hparams⟩
  unfold Kernel.loopBounds at hbounds
  simp only [hinfo, bind, Except.bind, hports, isEmpty_nil, if_true] at hbounds
  cases hbounds

/-- A loop gets its markers, or it has no boundary that parameters can be read off. -/
theorem Marked.insert_cases (hm : Marked k k' inserted c) (hk : k.Unmarked) (hn : k.WellNested)
    (hx : x ∈ k.sequence) (hv : visited x = true) (hlevels : x.loopIds = outer ++ id :: inner)
    (hid : id.isSentinel = false) (hnew : id ∉ inserted) (houter : ∀ o ∈ LoopId.loops outer, o ∈ inserted) :
    (∃ k'' c', Markers.insert id outer.length (LoopId.endInLoop outer) k' = .ok () k'' ∧
        Marked k k'' (id :: inserted) c') ∨
      ¬Insertable k id ∧ ∃ f k'', Markers.insert id outer.length (LoopId.endInLoop outer) k' = .error f k'' := by
  by_cases hins : Insertable k id
  · exact .inl (hm.insert hk hn hx hv hlevels hid hnew houter hins)
  · refine .inr ⟨hins, ?_⟩
    cases hrun : Markers.insert id outer.length (LoopId.endInLoop outer) k' with
    | error f k'' => exact ⟨f, k'', rfl⟩
    | ok _ k'' =>
      obtain ⟨info, hinfo, hports, l, operands, hparams⟩ := of_insert_ok hrun
      rw [hm.loops] at hinfo
      have htag : id ∈ x.loopIds := by simp [hlevels]
      rw [hm.loopParams_eq hk hn hx htag hinfo] at hparams
      refine absurd ⟨info, hinfo, hports, fun flag => ?_⟩ hins
      obtain ⟨l', hl'⟩ := loopParams_outer hparams flag
      exact ⟨l', operands, hl'⟩

/-- The pass reads off the next level outside a loop whether another one runs it again. -/
theorem Marked.hasOuter_eq (hm : Marked k k' inserted c) (hlevels : x.loopIds = outer ++ id :: inner)
    (houter : ∀ o ∈ LoopId.loops outer, o ∈ inserted) :
    hasOuter x inserted outer.length = LoopId.endInLoop outer := by
  rcases eq_nil_or_concat outer with rfl | ⟨init, o, rfl⟩
  · rfl
  · have hget : x.loopIds[init.length]? = some o := by simp [hlevels]
    rw [concat_eq_append, LoopId.endInLoop_append, length_append, length_singleton, hasOuter, hget]
    cases ho : o.isSentinel with
    | false => simpa using houter o (LoopId.mem_loops.2 ⟨by simp, ho⟩)
    | true =>
      have hfree : o ∉ inserted := fun hmem => Bool.false_ne_true ((hm.real o hmem).symm.trans ho)
      simp [hfree]

/-- What going through levels of an expression from outside inward does, those outside being
    done. -/
theorem Marked.visitLevels (hm : Marked k k' inserted c) (hk : k.Unmarked) (hn : k.WellNested)
    (hx : x ∈ k.sequence) (hv : visited x = true) {ids : List LoopId} (hlevels : x.loopIds = outer ++ ids)
    (houter : ∀ o ∈ LoopId.loops outer, o ∈ inserted) :
    (∃ inserted' k'' c', (ids.zipIdx outer.length).foldlM (visitLevel x) inserted k' = .ok inserted' k'' ∧
        Marked k k'' inserted' c' ∧ (∀ o ∈ inserted, o ∈ inserted') ∧
        ∀ o ∈ LoopId.loops x.loopIds, o ∈ inserted') ∨
      (∃ id ∈ LoopId.loops x.loopIds, ¬Insertable k id) ∧
        ∃ f k'', (ids.zipIdx outer.length).foldlM (visitLevel x) inserted k' = .error f k'' := by
  induction ids generalizing outer inserted k' c with
  | nil =>
    rw [append_nil] at hlevels
    exact .inl ⟨inserted, k', c, rfl, hm, fun _ h => h, hlevels ▸ houter⟩
  | cons id ids ih =>
    have hlevels' : x.loopIds = (outer ++ [id]) ++ ids := by simp [hlevels]
    have hlength : (outer ++ [id]).length = outer.length + 1 := by simp
    rw [zipIdx_cons, foldlM_cons, ← hlength]
    by_cases hskip : id.isSentinel = true ∨ id ∈ inserted
    · -- the level is free, or its loop has markers
      have hstep : visitLevel x inserted (id, outer.length) k' = .ok inserted k' := by
        rw [visitLevel, if_pos]
        · rfl
        · simpa using hskip
      rw [bind_run_ok hstep]
      refine ih hm hlevels' fun o ho => ?_
      rw [LoopId.loops_append, mem_append] at ho
      rcases ho with ho | ho
      · exact houter o ho
      · obtain ⟨hmem, hreal⟩ := LoopId.mem_loops.1 ho
        rw [mem_singleton.1 hmem] at hreal ⊢
        exact hskip.resolve_left (by simp [hreal])
    · rw [not_or, Bool.not_eq_true] at hskip
      obtain ⟨hid, hnew⟩ := hskip
      have hlevel : visitLevel x inserted (id, outer.length) k' =
          (do Markers.insert id outer.length (LoopId.endInLoop outer)
              return id :: inserted) k' := by
        rw [visitLevel, if_neg (by simp [hid, hnew]), hm.hasOuter_eq hlevels houter]
      rcases hm.insert_cases hk hn hx hv hlevels hid hnew houter with
        ⟨k'', c', hrun, hm'⟩ | ⟨hins, f, k'', hrun⟩
      · have hstep : visitLevel x inserted (id, outer.length) k' = .ok (id :: inserted) k'' := by
          rw [hlevel, bind_run_ok hrun]
          rfl
        rw [bind_run_ok hstep]
        have houter' : ∀ o ∈ LoopId.loops (outer ++ [id]), o ∈ id :: inserted := by
          intro o ho
          rw [LoopId.loops_append, mem_append] at ho
          rcases ho with ho | ho
          · exact mem_cons_of_mem id (houter o ho)
          · rw [mem_singleton.1 (LoopId.mem_loops.1 ho).1]
            exact mem_cons_self
        rcases ih hm' hlevels' houter' with ⟨inserted', k3, c3, hrest, hm3, hsub, hall⟩ | hfail
        · exact .inl ⟨inserted', k3, c3, hrest, hm3, fun o ho => hsub o (mem_cons_of_mem id ho), hall⟩
        · exact .inr hfail
      · refine .inr ⟨⟨id, LoopId.mem_loops.2 ⟨by simp [hlevels], hid⟩, hins⟩, f, k'', ?_⟩
        have hstep : visitLevel x inserted (id, outer.length) k' = .error f k'' := by
          rw [hlevel, bind_run_error hrun]
        rw [bind_run_error hstep]

end Step

section Run

variable {k' : Kernel} {inserted : List LoopId} {c : Code}

theorem Marked.visit (hm : Marked k k' inserted c) (hk : k.Unmarked) (hn : k.WellNested)
    (hx : x ∈ k.sequence) :
    (∃ inserted' k'' c', Markers.visit inserted x.id k' = .ok inserted' k'' ∧ Marked k k'' inserted' c' ∧
        (∀ o ∈ inserted, o ∈ inserted') ∧ (visited x = true → ∀ o ∈ LoopId.loops x.loopIds, o ∈ inserted')) ∨
      (∃ id ∈ LoopId.loops x.loopIds, ¬Insertable k id) ∧
        ∃ f k'', Markers.visit inserted x.id k' = .error f k'' := by
  have hread : k'.expr x.id = x := hm.lists.read x (hm.mem_flatten hx)
  unfold Markers.visit
  rw [get_bind_run, hread]
  cases hv : visited x with
  | false =>
    rw [if_pos (by rwa [visited, Bool.not_eq_false'] at hv)]
    exact .inl ⟨inserted, k', c, rfl, hm, fun _ h => h, fun h => by cases h⟩
  | true =>
    rw [if_neg (by rwa [visited, Bool.not_eq_true', ← Bool.not_eq_true] at hv)]
    rcases hm.visitLevels hk hn hx hv (show x.loopIds = [] ++ x.loopIds from rfl) (by simp [LoopId.loops]) with
      ⟨inserted', k'', c', hrun, hm', hsub, hall⟩ | hfail
    · exact .inl ⟨inserted', k'', c', hrun, hm', hsub, fun _ => hall⟩
    · exact .inr hfail

theorem Marked.visitAll (hm : Marked k k' inserted c) (hk : k.Unmarked) (hn : k.WellNested)
    {xs : List Expr} (hxs : ∀ x ∈ xs, x ∈ k.sequence) :
    (∃ inserted' k'' c', (xs.map Expr.id).foldlM Markers.visit inserted k' = .ok inserted' k'' ∧
        Marked k k'' inserted' c' ∧ (∀ o ∈ inserted, o ∈ inserted') ∧
        ∀ x ∈ xs, visited x = true → ∀ o ∈ LoopId.loops x.loopIds, o ∈ inserted') ∨
      (∃ x ∈ xs, ∃ id ∈ LoopId.loops x.loopIds, ¬Insertable k id) ∧
        ∃ f k'', (xs.map Expr.id).foldlM Markers.visit inserted k' = .error f k'' := by
  induction xs generalizing inserted k' c with
  | nil => exact .inl ⟨inserted, k', c, rfl, hm, fun _ h => h, by simp⟩
  | cons x xs ih =>
    rw [map_cons, foldlM_cons]
    rcases hm.visit hk hn (hxs x mem_cons_self) with
      ⟨inserted1, k1, c1, hrun, hm1, hsub1, hall1⟩ | ⟨hins, f, k1, hrun⟩
    · rw [bind_run_ok hrun]
      rcases ih hm1 fun y hy => hxs y (mem_cons_of_mem x hy) with
        ⟨inserted2, k2, c2, hrest, hm2, hsub2, hall2⟩ | ⟨⟨y, hy, hins⟩, hfail⟩
      · refine .inl ⟨inserted2, k2, c2, hrest, hm2, fun o ho => hsub2 o (hsub1 o ho), ?_⟩
        exact forall_mem_cons.2 ⟨fun hv o ho => hsub2 o (hall1 hv o ho), hall2⟩
      · exact .inr ⟨⟨y, mem_cons_of_mem x hy, hins⟩, hfail⟩
    · rw [bind_run_error hrun]
      exact .inr ⟨⟨x, mem_cons_self, hins⟩, f, k1, rfl⟩

/-- A kernel without markers is marked code without loops. -/
theorem Marked.start (hk : k.Unmarked) : Marked k k [] (.ofOps k.sequence .done) where
  lists := by simpa [Code.flatten] using hk.lists
  nested := Code.nested_ofOps hk.plain trivial
  ops := by simp [Code.ops]
  marks := Code.Wraps.marks_of_ops fun x _ => by simp
  markers := by
    intro x hx hkind
    rw [hk.plain x (by simpa [Code.flatten] using hx)] at hkind
    cases hkind
  around := by simp
  real := by simp
  known := by simp
  names := by
    rw [perm_nil]
    exact Code.names_ofOps _ _
  once := .nil
  needed := by simp
  loops := rfl
  config := rfl
  produced := ⟨[], by simp⟩
  next := Nat.le_refl _

/-- Materializing the nested loops of a kernel without markers gives marked code with every loop
    that tags a visited expression, or some loop has no boundary that parameters can be read off. -/
theorem run_cases (hk : k.Unmarked) (hn : k.WellNested) :
    (∃ changed k' inserted c, run k = .ok changed k' ∧ Marked k k' inserted c ∧
        ∀ x ∈ k.sequence, visited x = true → ∀ id ∈ LoopId.loops x.loopIds, id ∈ inserted) ∨
      (∃ x ∈ k.sequence, ∃ id ∈ LoopId.loops x.loopIds, ¬Insertable k id) ∧ ∃ f k', run k = .error f k' := by
  unfold run
  rw [get_bind_run, hk.lists.order]
  rcases (Marked.start hk).visitAll hk hn fun x (hx : x ∈ k.sequence) => hx with
    ⟨inserted, k', c, hrun, hm, -, hall⟩ | ⟨hins, f, k', hrun⟩
  · rw [bind_run_ok hrun]
    exact .inl ⟨_, k', inserted, c, rfl, hm, hall⟩
  · rw [bind_run_error hrun]
    exact .inr ⟨hins, f, k', rfl⟩

end Run

/-! ## Labels -/

section Labels

variable {k' : Kernel} {inserted : List LoopId} {c : Code}

/-- Marked code is labelled with the loops that were inserted. -/
theorem labelled_of_marks {path : List LoopId} (hc : c.Marks k inserted path)
    (hmarkers : ∀ b e body, (b, e, body) ∈ c.loops → ∀ x ∈ [b, e],
      x.loopIds.filter (inserted.contains ·) = LoopId.loops x.loopIds)
    (hnames : ∀ id ∈ c.names, id ∈ inserted) : c.Labelled inserted path := by
  induction c generalizing path with
  | done => trivial
  | op x rest ih => exact ⟨hc.1, ih hc.2 hmarkers hnames⟩
  | loop b e body rest ihbody ihrest =>
    obtain ⟨l, hbounds, -, hne, hbody, hrest⟩ := hc
    obtain ⟨flag, hends, -⟩ := hbounds.ends
    have hfirst := hmarkers b e body mem_cons_self
    rw [Code.names, hends.1] at hnames
    refine ⟨⟨?_, ?_⟩, ⟨l, hends.1, hnames l.id (by simp), ?_, ?_⟩, ?_⟩
    · rw [hfirst b (by simp), hbounds.opening]
    · rw [hfirst e (by simp), hbounds.closing]
    · rintro rfl
      exact hne rfl
    · apply ihbody hbody
      · intro b' e' body' h
        exact hmarkers b' e' body' (by simp [Code.loops, h])
      · intro id hid
        exact hnames id (by simp [hid])
    · apply ihrest hrest
      · intro b' e' body' h
        exact hmarkers b' e' body' (by simp [Code.loops, h])
      · intro id hid
        exact hnames id (by simp [hid])

/-- The markers are tagged with loops that were inserted. -/
theorem Marked.filter_marker (hm : Marked k k' inserted c) (hx : x ∈ c.flatten)
    (hkind : x.kind.isMarker = true) :
    x.loopIds.filter (inserted.contains ·) = LoopId.loops x.loopIds := by
  apply filter_congr
  intro id hid
  rw [Bool.eq_iff_iff, contains_iff_mem, Bool.not_eq_true']
  constructor
  · exact hm.real id
  · intro hreal
    exact hm.markers x hx hkind id (LoopId.mem_loops.2 ⟨hid, hreal⟩)

theorem Marked.labelled (hm : Marked k k' inserted c) : c.Labelled inserted [] := by
  apply labelled_of_marks hm.marks
  · intro b e body h x hx
    obtain ⟨hb, he, -⟩ := Code.mem_flatten_of_mem_loops h
    have htied := hm.nested.of_mem_loops h
    rcases mem_pair.1 hx with rfl | rfl
    · exact hm.filter_marker hb (by rw [htied.opens]; rfl)
    · exact hm.filter_marker he (by rw [htied.closes]; rfl)
  · intro id hid
    exact hm.names.mem_iff.1 hid

end Labels

end Markers

end KernelLoops
