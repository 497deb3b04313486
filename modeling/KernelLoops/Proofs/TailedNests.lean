import KernelLoops.Proofs.FilledTails
import KernelLoops.Proofs.MaterializedNests

set_option autoImplicit false

/-! # Nests with tails

Splitting the tails of a marked kernel keeps the nest, the table and the markers consistent: loops
are copied under new names together with everything that is tagged with them, the table has the
amounts of every marker, and the pass is done after one run. -/

namespace KernelLoops

variable {k k' : Kernel} {c c' : Code}

/-- The loop has some amount of work and some increment, known or not, and its boundary can be
    counted. -/
structure LoopInfo.Sized (info : LoopInfo) : Prop where
  work : 0 ≤ info.workAmount
  step : 0 < info.increment
  ports : info.ports.length < 0x8000000000000000

instance (info : LoopInfo) : Decidable info.Sized :=
  decidable_of_iff (0 ≤ info.workAmount ∧ 0 < info.increment ∧ info.ports.length < 0x8000000000000000)
    ⟨fun h => ⟨h.1, h.2.1, h.2.2⟩, fun h => ⟨h.work, h.step, h.ports⟩⟩

/-- Every loop that tags an expression has a size. -/
def Kernel.Sized (k : Kernel) : Prop :=
  ∀ x ∈ k.sequence, ∀ id ∈ x.loopIds, ∀ info ∈ k.loops.get? id, info.Sized

instance (k : Kernel) : Decidable k.Sized :=
  inferInstanceAs (Decidable (∀ x ∈ k.sequence, ∀ id ∈ x.loopIds, ∀ info ∈ k.loops.get? id, info.Sized))

/-- Every loop that tags an expression is registered. -/
def Kernel.TagsKnown (k : Kernel) : Prop :=
  ∀ x ∈ k.sequence, ∀ id ∈ x.loopIds, id.isSentinel = false → (k.loops.get? id).isSome

/-- The markers of loops that turn out to be static. -/
theorem Expr.Ends.whole_of_static {e : Expr} {l : LoopParams} {outer : Bool} (h : e.Ends k l outer)
    (hsized : ∀ info ∈ k.loops.get? l.id, info.Sized) (hstatic : l.isStatic = true) : e.Whole l := by
  apply h.whole
  intro info hinfo
  obtain ⟨-, info', operands, -, hinfo', hparams, -⟩ := h
  obtain rfl : info' = info := Option.some.inj (hinfo'.symm.trans hinfo)
  obtain ⟨_, _, _, -, -, -, hl⟩ := Markers.of_loopParams_ok hparams
  rw [hl, LoopParams.isStatic, Bool.and_eq_true, Bool.not_eq_true', Bool.not_eq_true'] at hstatic
  exact ⟨(hsized _ hinfo).work, hstatic.1, (hsized _ hinfo).step, hstatic.2, (hsized _ hinfo).ports⟩

/-- A closing marker of marked code has the parameters of a loop that tags some expression. -/
theorem Code.Marks.closings {inserted path : List LoopId} (hc : c.Marks k inserted path)
    (hsub : ∀ x ∈ c.ops, x ∈ k.sequence) :
    c.Closings fun e => ∃ l outer, e.Ends k l outer ∧ ∃ x ∈ k.sequence, l.id ∈ x.loopIds := by
  induction c generalizing path with
  | done => trivial
  | op x rest ih => exact ih hc.2 fun y hy => hsub y (List.mem_cons_of_mem x hy)
  | loop b e body rest ihbody ihrest =>
    obtain ⟨l, hends, hops, hne, hbody, hrest⟩ := hc
    obtain ⟨x, hx⟩ := List.exists_mem_of_ne_nil _ hne
    rw [hops] at hx
    obtain ⟨hxseq, hxtag⟩ := List.mem_filter.1 hx
    obtain ⟨outer, hends, -⟩ := hends.ends
    refine ⟨⟨l, outer, hends, x, hxseq, List.contains_iff_mem.1 hxtag⟩, ihbody hbody fun y hy => ?_,
      ihrest hrest fun y hy => ?_⟩
    · exact hsub y (List.mem_append_left _ hy)
    · exact hsub y (List.mem_append_right _ hy)

/-- A registered kernel that lists code whose names are the loops looked at is bracketed. -/
theorem Code.Registered.bracketed (hlists : k.Lists c.flatten) (hnested : c.Nested c.flatten)
    {ids : List LoopId}
    (h : c.Registered k.loops ids []) (hnames : c.names.Perm ids) : k.Bracketed c where
  lists := hlists
  nested := hnested
  apart := h.apart
  labelled := h.labelled.congr fun _ => hnames.mem_iff.symm

namespace Tails

variable {k m : Kernel}

/-- What splitting the tails of the marked kernel `m` of `k` leaves: the code `c` has become `c'`,
    whose loops have names of their own and tag what is between their markers. -/
structure Splits (k m k' : Kernel) (c c' : Code) : Prop where
  marked : ∃ inserted, Markers.Marked k m inserted c
  unsplit : c.Unsplit
  config : k'.config = m.config
  bare : c'.bare = (c.lower m [] m.nextTensor).1.bare
  brackets : k'.Bracketed c'
  agrees : c'.Agrees k'.loops
  real : ∀ id ∈ c'.names, id.isSentinel = false
  covered : c'.Covered c'.names

theorem Splits.rounded (h : Splits k m k' c c') : c'.Rounded k'.config.evaluateOnce := by
  rw [h.config]
  exact (h.unsplit.lower m [] m.nextTensor).congr h.bare

theorem Splits.filled (h : Splits k m k' c c') : Code.Filled m.config.fillTails id none c c' := by
  obtain ⟨inserted, hm⟩ := h.marked
  exact (h.unsplit.filled (fun x hx t ht => hm.lists.known x hx t (.inl ht)) m []).congr h.bare.symm h.real
    h.brackets.labelled h.covered

/-- The tails of a marked kernel can be split. -/
theorem exists_splits {changed : Bool} (hk : k.Unmarked) (hn : k.WellNested) (htags : k.TagsKnown)
    (hloops : k.loops.Plain) (hsized : k.Sized) (hmarkers : Markers.run k = .ok changed m) :
    ∃ changed' k' c c', run m = .ok changed' k' ∧ Splits k m k' c c' := by
  rcases Markers.run_cases hk hn with ⟨_, _, inserted, c, hrun, hm, hall⟩ | ⟨-, f, _, hrun⟩
  swap
  · rw [hmarkers] at hrun
    cases hrun
  rw [hmarkers] at hrun
  cases hrun
  have hunsplit : c.Unsplit := by
    refine (hm.marks.closings fun _ hx => hm.ops ▸ hx).imp ?_
    rintro e ⟨l, outer, hends, x, hx, htag⟩
    exact ⟨l, hends.1, hends.whole_of_static (hsized x hx l.id htag)⟩
  have hreg := hm.registered htags
  have hcovered : c.Covered inserted := by
    intro x hx hnest id hid hs
    have hloop := LoopId.mem_loops.2 ⟨hid, hs⟩
    cases hmarker : x.kind.isMarker with
    | true => exact hm.markers x hx hmarker id hloop
    | false =>
      refine hall x (hm.ops ▸ hm.nested.mem_ops hx hmarker) ?_ id hloop
      rw [Markers.visited, hmarker]
      exact hnest
  obtain ⟨c', k', changed', htails, hlists, hnested, hbare, hconfig, new, hlabels⟩ :=
    run_eq hm.lists hm.nested (hm.loops ▸ hloops) hreg fun e he hkind => by
      obtain ⟨l, hl, hwhole⟩ := Code.Closings.of_mem hunsplit hm.nested he hkind
      exact ⟨l, hl, fun hs => (hwhole hs).ready fun t ht => hm.lists.known e he t (.inl ht)⟩
  have hnames : c'.names.Perm (inserted ++ new) := hlabels.names.trans (hm.names.append_right new)
  refine ⟨changed', k', c, c', htails, ⟨inserted, hm⟩, hunsplit, hconfig, hbare,
    hlabels.registered.bracketed hlists hnested hnames, hlabels.registered.agrees, fun id hid => ?_,
    fun x hx hnest id hid hs => hnames.mem_iff.2 (hlabels.covered hcovered x hx hnest id hid hs)⟩
  rcases List.mem_append.1 (hnames.mem_iff.1 hid) with hold | hnew
  · exact hm.real id hold
  · exact (hlabels.fresh id hnew).2.1

/-- Splitting the tails of a marked kernel succeeds and keeps the nest, the table and the markers
    consistent. The markers are balanced, every marker belongs to a loop, and an expression is
    between the markers of a loop exactly if it is tagged with it, as everything is that takes part
    in the nest. The loops have different names, and are registered with their amounts; those of
    known size run over whole increments, over one at most if they are evaluated once. The loops
    that stand for a loop of the marked kernel share out its work, in each copy of the loops around
    it. Splitting again changes nothing. -/
theorem run_keeps_nest {changed : Bool} (hk : k.Unmarked) (hn : k.WellNested) (htags : k.TagsKnown)
    (hloops : k.loops.Plain) (hsized : k.Sized) (hmarkers : Markers.run k = .ok changed m) :
    ∃ changed' k', run m = .ok changed' k' ∧ k'.Balanced [] k'.sequence ∧
      (∀ x ∈ k'.sequence, x.kind.isMarker = true → ∃ id b e, k'.LoopPair id b e ∧ (x = b ∨ x = e)) ∧
      (∀ id b e, k'.LoopPair id b e → ∀ x ∈ k'.sequence, k'.Between b x e ↔ id ∈ x.loopIds) ∧
      (∀ x ∈ k'.sequence, x.inNest = true → ∀ id ∈ x.loopIds, id.isSentinel = false → ∃ b e, k'.LoopPair id b e) ∧
      (∀ e ∈ k'.sequence, e.kind = .loopEnd → ∃ l, e.loop = some l ∧ k'.loops.Matches l ∧
        (∀ e' ∈ k'.sequence, e'.kind = .loopEnd → e'.loop.map LoopParams.id = some l.id → e' = e) ∧
        (l.isStatic = true →
          l.increment.toInt ∣ l.workAmount.toInt ∧ (l.once = true → l.workAmount ≤ l.increment))) ∧
      (∃ c c' : Code, m.sequence = c.flatten ∧ c.Nested c.flatten ∧ k'.sequence = c'.flatten ∧
        c'.Nested c'.flatten ∧ c.SharedOut c') ∧
      ∃ changed'', run k' = .ok changed'' k' := by
  obtain ⟨changed', k', c, c', htails, hsplits⟩ := exists_splits hk hn htags hloops hsized hmarkers
  have hbrackets := hsplits.brackets
  have hsequence := hbrackets.lists.sequence
  refine ⟨changed', k', htails, hbrackets.balanced, ?_, ?_, ?_, ?_, ?_, ?_⟩
  · intro x hx hkind
    obtain ⟨id, -, hpair⟩ := hbrackets.exists_loopPair_of_marker hx hkind
    exact ⟨id, hpair⟩
  · intro id b e hpair x hx
    exact hbrackets.between_iff hpair hx
  · intro x hx hnest id hid hs
    rw [hsequence] at hx
    obtain ⟨b, e, hpair, -⟩ := hbrackets.existsUnique_loopPair (hsplits.covered x hx hnest id hid hs)
    exact ⟨b, e, hpair⟩
  · intro e he hkind
    obtain ⟨l, hl, hstatic⟩ := Code.Closings.of_mem hsplits.rounded hbrackets.nested (hsequence ▸ he) hkind
    obtain ⟨b, body, hloop⟩ := hbrackets.exists_loop_of_closing he hkind
    refine ⟨l, hl, hsplits.agrees.of_mem_loops hloop hl, ?_, ?_⟩
    · intro e' he' hkind' hid
      exact hbrackets.closing_unique he hkind (by rw [hl, Option.map_some]) he' hkind' hid
    · intro hs
      refine ⟨Int.dvd_of_emod_eq_zero ?_, (hstatic hs).single⟩
      rw [← Amount.toInt_mod_of_nonneg (Amount.le_iff.1 (hstatic hs).work), (hstatic hs).divides]
      rfl
  · obtain ⟨inserted, hm⟩ := hsplits.marked
    exact ⟨c, c', hm.lists.sequence, hm.nested, hsequence, hbrackets.nested, hsplits.filled.sharedOut⟩
  · exact run_rounded hbrackets.lists fun e he hkind => Code.Closings.of_mem hsplits.rounded hbrackets.nested he hkind

/-- A loop over ten elements, and one over an unknown number of them, next to each other in a loop
    over five rows, with a free level between them. None of the known amounts is a multiple of its
    increment. -/
def raggedLoops : Builder :=
  let row (id : TensorId) : Tensor := { TensorType.planar .float32 [5, 1, 10] with id }
  (Builder.start {} .float32 3 4).after
    [.parameter [5, 1, 10],
      .load (row 0), .store (row 1), .loop (some 0) 2 10 4,
      .load (row 2), .store (row 3), .loop (some 2) 2 Amount.dynamic 4,
      .loop (some 0) 0 5 2, .result (row 4)]

theorem raggedLoops_plain : raggedLoops.kernel.Plain :=
  ((Built.start _ _ _ _).after (by decide +kernel)).plain

theorem raggedLoops_nested : raggedLoops.kernel.WellNested := by
  apply Kernel.WellNested.of_agree <;> decide +kernel

theorem raggedLoops_sized : raggedLoops.kernel.Sized := by decide +kernel

/-- The ragged loops can be split, and are rounded then. -/
theorem run_keeps_nest_ragged : ∃ changed m, Markers.run raggedLoops.kernel = .ok changed m ∧
    ∃ changed' k', run m = .ok changed' k' ∧ k'.Balanced [] k'.sequence ∧
      ∃ changed'', run k' = .ok changed'' k' := by
  obtain ⟨m, hrun⟩ := exists_of_run' (by decide +kernel : Markers.run.run' raggedLoops.kernel = some true)
  have hplain := raggedLoops_plain
  obtain ⟨changed', k', hsplit, hbalanced, -, -, -, -, -, hagain⟩ := run_keeps_nest hplain.unmarked raggedLoops_nested
    (fun x hx => (hplain.exprs x hx).tags) hplain.loops raggedLoops_sized hrun
  exact ⟨true, m, hrun, changed', k', hsplit, hbalanced, hagain⟩

/-! ## Fills -/

end Tails

end KernelLoops
