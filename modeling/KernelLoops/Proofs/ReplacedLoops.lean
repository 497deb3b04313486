import KernelLoops.Proofs.TailPositions

set_option autoImplicit false

/-! # Materialized loops and their replacements

Every closing marker that materializing loops inserts is replaced, when tails are split, by a marker
over whole chunks, a marker over the rest, or both. Running one after the other steps an operand as
far as single steps do, whatever the kernel around the loop looks like, as long as the loop is not
inside one whose blocks it iterates. -/

namespace KernelLoops

open List

/-- The sequence and the index of a kernel agree, and the boundaries of its loops are ports of
    expressions in the sequence. -/
structure Kernel.Formed (k : Kernel) : Prop where
  lists : k.Lists k.sequence
  ports : ∀ id info, k.loops.get? id = some info → ∀ p ∈ info.ports, p.expr ∈ k.order

/-! ## Closing markers the way they are made -/

namespace Markers

/-- Every closing marker of `s` that is not one of `k` counts, and has an offset for every operand
    it steps. -/
structure Inserted (k s : Kernel) : Prop where
  lists : s.Lists s.sequence
  loops : s.loops = k.loops
  order : ∀ i ∈ k.order, i ∈ s.order
  ends : ∀ e ∈ s.order, e ∉ k.order → (s.expr e).kind = .loopEnd →
    ∃ l, (s.expr e).loop = some l ∧ l.once = false ∧ l.finalOffsets.length = l.ptrIncrements.length

namespace Inserted

variable {k s s' : Kernel}

theorem start (hk : k.Formed) : Inserted k k where
  lists := hk.lists
  loops := rfl
  order _ hi := hi
  ends _ he hnew _ := absurd he hnew

/-- A new expression is made and inserted. -/
theorem added (h : Inserted k s) {n : TensorId} (hn : s.nextTensor ≤ n) {y : Expr}
    (hid : y.id = s.exprs.size)
    (hknown : ∀ t, t ∈ y.inputs ∨ t ∈ y.outputs → t.id < n)
    (hend : y.kind = .loopEnd →
      ∃ l, y.loop = some l ∧ l.once = false ∧ l.finalOffsets.length = l.ptrIncrements.length) {mark : Option ExprId}
    (hrun : Edit.insertBefore s.exprs.size mark { s with nextTensor := n, exprs := s.exprs.push y } = .ok () s') :
    Inserted k s' ∧ s'.nextTensor = n := by
  let u : Kernel := { s with nextTensor := n, exprs := s.exprs.push y }
  change Edit.insertBefore s.exprs.size mark u = .ok () s' at hrun
  have hread : ∀ i, u.expr i = if i = s.exprs.size then y else s.expr i := Kernel.expr_push s y
  have hold : ∀ i ∈ s.order, u.expr i = s.expr i := fun i hi =>
    (hread i).trans (if_neg (Nat.ne_of_lt (h.lists.lt_size hi)))
  have hnew : s.exprs.size ∉ s.order := fun hmem => Nat.lt_irrefl _ (h.lists.lt_size hmem)
  have hlists : u.Lists s.sequence :=
    h.lists.congr rfl rfl rfl (by simp [u]) hn fun x hx => hold x.id (h.lists.mem_order.2 ⟨x, hx, rfl⟩)
  have hsize : s.exprs.size < u.exprs.size := by simp [u]
  have hloops : u.loops = k.loops := h.loops
  have horder : u.order = s.order := rfl
  have hnext : u.nextTensor = n := rfl
  clear_value u
  have hself : u.expr s.exprs.size = y := (hread _).trans (if_pos rfl)
  rw [← horder] at hnew
  obtain ⟨-, rfl, hmark⟩ := Kernel.Exact.of_insertBefore_ok hrun
  refine ⟨⟨hlists.self.placed hnew hsize (by rw [hself, hid]) (fun t ht => ?_) hmark, hloops, fun i hi => ?_,
    fun e he hek hkind => ?_⟩, hnext⟩
  · rw [hself] at ht
    exact hnext ▸ hknown t ht
  · exact Kernel.Exact.mem_place.2 (.inr (horder ▸ h.order i hi))
  · rcases Kernel.Exact.mem_place.1 he with rfl | he
    · rw [show (Edit.placed s.exprs.size mark u).expr s.exprs.size = y from hself] at hkind ⊢
      exact hend hkind
    · rw [horder] at he
      rw [show (Edit.placed s.exprs.size mark u).expr e = s.expr e from hold e he] at hkind ⊢
      exact h.ends e he hek hkind

/-- The markers of a loop are inserted. -/
theorem insert (hk : k.Formed) (h : Inserted k s) {id : LoopId} {level : Nat} {outer : Bool}
    (hrun : Markers.insert id level outer s = .ok () s') : Inserted k s' := by
  unfold Markers.insert at hrun
  obtain ⟨info, hinfo, hrun⟩ := Edit.of_ask_bind_run_ok hrun
  obtain ⟨⟨start, stop⟩, -, hrun⟩ := Edit.of_ask_bind_run_ok hrun
  obtain ⟨⟨l, operands⟩, hparams, hrun⟩ := Edit.of_ask_bind_run_ok hrun
  dsimp only at hrun
  rw [get_bind_run] at hrun
  have hoperands : ∀ t ∈ operands, t.id < s.nextTensor := by
    intro t ht
    obtain ⟨p, hp, htp⟩ := mem_operands hparams ht
    have hget : k.loops.get? id = some info := h.loops ▸ LoopTable.info_eq_ok.1 hinfo
    obtain ⟨x, hx, hpx⟩ := h.lists.mem_order.1 (h.order p.expr (hk.ports id info hget p hp))
    have hmem := of_tensorAt_ok htp
    rw [← hpx, h.lists.read x hx] at hmem
    exact h.lists.known x hx t hmem
  obtain ⟨tie, s1, htie, hrun⟩ := of_bind_run_ok hrun
  obtain ⟨b, s2, hb, hrun⟩ := of_bind_run_ok hrun
  obtain ⟨⟨⟩, s3, hopen, hrun⟩ := of_bind_run_ok hrun
  obtain ⟨e, s4, he, hclose⟩ := of_bind_run_ok hrun
  cases htie
  cases hb
  obtain ⟨h3, hnext⟩ := h.added (Nat.le_succ _) rfl
    (fun t ht => by
      obtain rfl := mem_singleton.1 (ht.resolve_left not_mem_nil)
      exact Nat.lt_succ_self _)
    (fun hkind => OpKind.noConfusion hkind) hopen
  cases he
  refine (h3.added (Nat.le_refl _) rfl (fun t ht => ?_) (fun _ => ?_) hclose).1
  · rw [hnext]
    rcases mem_append.1 (ht.resolve_right not_mem_nil) with ht | ht
    · exact Nat.lt_succ_of_lt (hoperands t ht)
    · obtain rfl := mem_singleton.1 ht
      exact Nat.lt_succ_self _
  · obtain ⟨entries, steps, sizes, -, -, -, rfl⟩ := of_loopParams_ok hparams
    exact ⟨_, rfl, rfl, length_map _⟩

/-! ## Whole runs -/

theorem visitLevel (hk : k.Formed) (h : Inserted k s) {x : Expr} {inserted inserted' : List LoopId}
    {level : LoopId × Nat}
    (hrun : Markers.visitLevel x inserted level s = .ok inserted' s') : Inserted k s' := by
  obtain ⟨id, n⟩ := level
  unfold Markers.visitLevel at hrun
  dsimp only at hrun
  split_ifs at hrun
  · cases hrun
    exact h
  · obtain ⟨⟨⟩, s1, hinsert, hrun⟩ := of_bind_run_ok hrun
    cases hrun
    exact h.insert hk hinsert

/-- What each turn of a loop keeps is kept by the loop. -/
theorem foldlM {α β : Type} {turn : β → α → Edit β}
    (hturn : ∀ b a s b' s', Inserted k s → turn b a s = .ok b' s' → Inserted k s')
    (h : Inserted k s) {xs : List α} {b b' : β}
    (hrun : xs.foldlM turn b s = .ok b' s') : Inserted k s' := by
  induction xs generalizing b s with
  | nil =>
    cases hrun
    exact h
  | cons a xs ih =>
    rw [foldlM_cons] at hrun
    obtain ⟨b1, s1, hfirst, hrest⟩ := of_bind_run_ok hrun
    exact ih (hturn b a s b1 s1 h hfirst) hrest

theorem visit (hk : k.Formed) (h : Inserted k s) {inserted inserted' : List LoopId} {e : ExprId}
    (hrun : Markers.visit inserted e s = .ok inserted' s') : Inserted k s' := by
  unfold Markers.visit at hrun
  rw [get_bind_run] at hrun
  split_ifs at hrun
  · cases hrun
    exact h
  · exact h.foldlM (fun _ _ _ _ _ hs hrun => hs.visitLevel hk hrun) hrun

/-- Materializing the loops of a kernel inserts markers into it. -/
theorem of_run_ok (hk : k.Formed) {changed : Bool} (hrun : Markers.run k = .ok changed s) :
    Inserted k s := by
  unfold Markers.run at hrun
  rw [get_bind_run] at hrun
  obtain ⟨inserted, s1, hvisits, hrun⟩ := of_bind_run_ok hrun
  cases hrun
  exact (start hk).foldlM (fun _ _ _ _ _ hs hrun => hs.visit hk hrun) hvisits

end Inserted

end Markers

/-! ## Stepping through the replacements -/

/-- One operand is stepped through the loops that end at the markers `ends`, each from where the one
    before left it. -/
def Kernel.stepThrough (k : Kernel) (operand : Int) (ends : List ExprId) (start : Amount) :
    Except Failure LoopParams.Positions := do
  let loops ← ends.mapM fun e => (k.expr e).params
  LoopParams.through operand loops start

theorem Kernel.stepThrough_eq {k : Kernel} {ends : List ExprId} {ls : List LoopParams}
    (h : ends.map (fun e => (k.expr e).loop) = ls.map some) (operand : Int) (start : Amount) :
    k.stepThrough operand ends start = LoopParams.through operand ls start := by
  have hloops : Forall₂ (fun e l => (k.expr e).loop = some l) ends ls := by
    rwa [← forall₂_eq_eq_eq, forall₂_map_left_iff, forall₂_map_right_iff] at h
  exact except_bind_ok (mapM_eq_ok (hloops.imp fun e l hl => by rw [Expr.params, hl]))

theorem LoopParams.length_parts (optimize touches : Bool) (id : LoopId) (l : LoopParams) :
    (l.parts optimize touches id).length =
      if l.workAmount % l.increment = 0 ∨ l.workAmount < l.increment then 1 else 2 := by
  unfold parts
  dsimp only
  by_cases hdiv : l.workAmount % l.increment = 0
  · rw [if_pos hdiv, if_pos (.inl hdiv)]
    rfl
  · by_cases hless : l.workAmount < l.increment
    · rw [if_neg hdiv, if_pos hless, if_pos (.inr hless)]
      rfl
    · rw [if_neg hdiv, if_neg hless, if_neg fun hone => hone.elim hdiv hless]
      rfl

/-- Every loop that is materialized and not inside one whose blocks it iterates is replaced by a
    loop over whole chunks, a tail right behind it, or both, which take every operand to the start
    of each chunk and leave it where single steps would. Where loops that run once are evaluated
    once, this holds of a loop that an outer loop runs again and of one with a buffer among its
    operands. -/
theorem Tails.run_steps_chunks {k m k' : Kernel} {changed changed' : Bool} {e : ExprId}
    {l : LoopParams}
    (hk : k.Formed) (hmarkers : Markers.run k = .ok changed m) (htails : Tails.run m = .ok changed' k')
    (he : e ∈ m.order) (hnew : e ∉ k.order) (hkind : (m.expr e).kind = .loopEnd) (hl : (m.expr e).loop = some l)
    (hstatic : l.isStatic = true) (hwork : 1 ≤ l.workAmount) (hinc : 1 ≤ l.increment)
    (houtside : ∀ b d, m.loopBeginOf d = .ok b → Sublist [b, e, d] m.order → m.Unsplit d)
    (hmoves : m.config.evaluateOnce = false ∨ l.hasOuterLoop = true ∨ Tails.touchesBuffer m (m.expr e) l = .ok true) :
    ∃ ends,
      (if l.workAmount % l.increment = 0 ∨ l.workAmount < l.increment then ends = [e]
        else ∃ e', ends = [e, e'] ∧ e' ∉ m.order ∧ (k'.expr e').kind = .loopEnd ∧
          (k'.expr e').loopIds = (m.expr e).loopIds ∧ Sublist [e, e'] k'.order ∧
          ∀ x ∈ m.order, ¬Sublist [e, x, e'] k'.order) ∧
      ∀ (i : Nat) (p : Amount), l.ptrIncrements[i]? = some p → ∃ f, l.finalOffsets[i]? = some f ∧ ∀ start,
        k'.stepThrough i ends start = .ok
          { bodies := LoopParams.spaced start (p * l.increment) (l.workAmount / l.increment).trips ++
              if l.workAmount % l.increment = 0 then [] else [start + p * (l.workAmount - l.workAmount % l.increment)]
            final := start + p * l.workAmount + f } ∧
        ∃ bodies, ({ l with increment := 1 } : LoopParams).positions i start =
          .ok { bodies, final := start + p * l.workAmount + f } := by
  have hm := Markers.Inserted.of_run_ok hk hmarkers
  obtain ⟨l', hl', honce, hlengths⟩ := hm.ends e he hnew hkind
  obtain rfl : l' = l := Option.some.inj (hl'.symm.trans hl)
  have hwork' : 0 < l'.workAmount := Int64.lt_of_lt_of_le (by decide) hwork
  have hinc' : 0 < l'.increment := Int64.lt_of_lt_of_le (by decide) hinc
  obtain ⟨ends, id, touches, hends, hparts, htouches⟩ :=
    Tails.run_parts hm.lists he hkind hl honce hstatic hwork' hinc' houtside htails
  refine ⟨ends, ?_, fun i p hp => ?_⟩
  · have hlength := congrArg List.length hparts
    rw [length_map, length_map, LoopParams.length_parts] at hlength
    cases hends with
    | alone =>
      split
      · rfl
      · next hboth => rw [if_neg hboth] at hlength; cases hlength
    | tailed htail =>
      split
      · next hone => rw [if_pos hone] at hlength; cases hlength
      · exact ⟨_, rfl, fun hmem => absurd (hm.lists.lt_size hmem) (Nat.not_lt.2 htail.new), htail.closes, htail.tags,
          htail.behind, fun x hx => Tails.TailBehind.not_between htail (hm.lists.lt_size hx)⟩
  · have hi : i < l'.finalOffsets.length := hlengths ▸ (List.getElem?_eq_some_iff.1 hp).1
    have hf : l'.finalOffsets[i]? = some l'.finalOffsets[i] := getElem?_eq_getElem hi
    refine ⟨l'.finalOffsets[i], hf, fun start => ⟨?_, ?_⟩⟩
    · rw [Kernel.stepThrough_eq hparts]
      exact LoopParams.through_parts hwork' hinc' honce hlengths (hmoves.imp_right (Or.imp_right htouches))
        hp hf id start
    · exact ⟨_, LoopParams.positions_whole (l := { l' with increment := 1 }) hwork'
        (show (0 : Amount) < 1 by decide) Int64.mod_one honce hp hf start⟩

/-- Five rows of ten elements, two rows and four elements at a time. -/
def raggedRows : Builder :=
  let rows (id : TensorId) : Tensor := { TensorType.planar .float32 [5, 10] with id }
  (Builder.start {} .float32 2 4).after
    [.parameter [5, 10], .load (rows 0), .store (rows 1), .loop (some 0) 1 10 4, .loop (some 0) 0 5 2, .result (rows 2)]

/-- The loop along the rows. -/
def rowLoop : LoopParams :=
  { id := 0, workAmount := 10, increment := 4, ptrIncrements := [1, 1], finalOffsets :=
  [-10, -10], elementSizes := [4, 4],
    numEntries := 1, numExits := 1, hasOuterLoop := true }

theorem raggedRows_formed : raggedRows.kernel.Formed where
  lists := ((Built.start _ _ _ _).after (by decide +kernel)).plain.lists
  ports id info hinfo := by
    have hall : ∀ p ∈ raggedRows.kernel.loops.entries, ∀ q ∈ p.2.ports, q.expr ∈ raggedRows.kernel.order := by
      decide +kernel
    obtain ⟨before, after, hentries, -⟩ := lookup_eq_some_iff.1 hinfo
    exact hall (id, info) (hentries ▸ by simp)

/-- The rows can be materialized and split, and neither loop is cut into blocks. -/
theorem run_raggedRows :
    EStateM.run' (do
      let _ ← Markers.run
      let m ← get
      let _ ← Tails.run
      return decide ((7 ∈ m.order ∧ 7 ∉ raggedRows.kernel.order) ∧
        ((m.expr 7).kind = .loopEnd ∧ (m.expr 7).loop = some rowLoop) ∧
        ∀ d ∈ m.order, (m.expr d).kind = .loopEnd →
          (((m.expr d).loop.bind fun l => m.loops.get? l.id).map LoopInfo.split) = some false) : Edit Bool)
      raggedRows.kernel = some true := by
  decide +kernel

/-- Along the rows there are two chunks of four elements and a tail of two. -/
theorem Tails.run_steps_chunks_ragged :
    ∃ changed m changed' k', Markers.run raggedRows.kernel = .ok changed m ∧
    Tails.run m = .ok changed' k' ∧ ∃ e' ∉ m.order, (k'.expr e').kind = .loopEnd ∧
      ∀ start, k'.stepThrough 1 [7, e'] start = .ok { bodies := [start, start + 4, start + 8], final := start } := by
  obtain ⟨k', hrun⟩ := exists_of_run' run_raggedRows
  obtain ⟨changed, m, hmarkers, hrun⟩ := of_bind_run_ok hrun
  rw [get_bind_run] at hrun
  obtain ⟨changed', k', htails, hrun⟩ := of_bind_run_ok hrun
  injection hrun with hfacts
  obtain ⟨⟨hmem, hnew⟩, ⟨hkind, hloop⟩, hunsplit⟩ := of_decide_eq_true hfacts
  obtain ⟨ends, hends, hsteps⟩ := Tails.run_steps_chunks raggedRows_formed hmarkers htails hmem hnew hkind hloop
    rfl (by decide) (by decide) (fun b d hb hsub => by
      have hd : d ∈ m.order := hsub.subset (by simp)
      have hsplit := hunsplit d hd (Kernel.of_loopBeginOf_ok hb).1
      obtain ⟨info, hinfo, hno⟩ := Option.map_eq_some_iff.1 hsplit
      obtain ⟨l, hl, hget⟩ := Option.bind_eq_some_iff.1 hinfo
      exact ⟨l, info, hl, hget, hno⟩)
    (.inr (.inl rfl))
  rw [if_neg (by decide)] at hends
  obtain ⟨e', rfl, hfresh, hcloses, -⟩ := hends
  obtain ⟨f, hf, hstep⟩ := hsteps 1 1 rfl
  obtain rfl : -10 = f := Option.some.inj hf
  refine ⟨changed, m, changed', k', hmarkers, htails, e', hfresh, hcloses, fun start => ?_⟩
  refine (hstep start).1.trans ?_
  have hcount : (rowLoop.workAmount / rowLoop.increment).trips = 2 := by decide
  have hstride : 1 * rowLoop.increment = 4 := by decide
  have hwhole : 1 * (rowLoop.workAmount - rowLoop.workAmount % rowLoop.increment) = 8 := by decide
  have hback : start + 1 * rowLoop.workAmount + -10 = start := by
    rw [show 1 * rowLoop.workAmount = 10 by decide]
    grind
  rw [hcount, hback, if_neg (by decide), hstride, hwhole]
  rfl

end KernelLoops
