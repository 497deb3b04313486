import KernelLoops.Proofs.MaterializedNests

set_option autoImplicit false

/-! # Loops that another loop runs again

A closing marker knows whether another loop runs its loop again. The flag is read off the next level
outside the loop, so it is set exactly if the loop at that level is around it. A loop that is around
it with a free level in between is not seen; where the loops of each expression are at adjacent
levels, none is missed. -/

namespace KernelLoops

open List

namespace Kernel

/-- The markers `b` and `e` lie strictly inside the markers `b'` and `e'`. -/
def Encloses (k : Kernel) (b' e' b e : Expr) : Prop := k.Between b' b e' ∧ k.Between b' e e'

/-- Some expression has the loop `o` at the level next to its loop `id`, on the outside. -/
def Adjoins (k : Kernel) (o id : LoopId) : Prop :=
  ∃ x ∈ k.sequence, ∃ outer inner, x.loopIds = outer ++ o :: id :: inner

variable {k : Kernel} {x : Expr} {id : LoopId} {outer inner : List LoopId}

/-- The next level outside a loop is a loop on one of its expressions exactly if it is on all of
    them. -/
theorem WellNested.endInLoop_iff (hn : k.WellNested) (hx : x ∈ k.sequence) (hid : k.HasLoop id)
    (hlevels : x.loopIds = outer ++ id :: inner) (houter : ∀ o ∈ LoopId.loops outer, k.HasLoop o) :
    LoopId.endInLoop outer = true ↔ ∃ o ∈ LoopId.loops outer, k.Adjoins o id := by
  constructor
  · intro hend
    rcases eq_nil_or_concat outer with rfl | ⟨init, o, rfl⟩
    · cases hend
    · rw [concat_eq_append] at hend hlevels ⊢
      rw [LoopId.endInLoop_append, Bool.not_eq_true'] at hend
      exact ⟨o, LoopId.mem_loops.2 ⟨by simp, hend⟩, x, hx, init, inner, by simp [hlevels]⟩
  · rintro ⟨o, ho, y, hy, outer', inner', hlevels'⟩
    obtain ⟨hlength, -⟩ := hn.level x hx y hy id outer inner (outer' ++ [o]) inner' hid hlevels (by simp [hlevels'])
    rcases eq_nil_or_concat outer with rfl | ⟨init, p, rfl⟩
    · cases ho
    · rw [concat_eq_append] at hlevels houter hlength ho ⊢
      rw [LoopId.endInLoop_append, Bool.not_eq_true']
      by_contra hfree
      rw [Bool.not_eq_false] at hfree
      -- A loop further out on one expression cannot be at the next level on another: its level is
      -- fixed.
      have hinit : o ∈ init := by
        obtain ⟨hmem, hreal⟩ := LoopId.mem_loops.1 ho
        rcases mem_append.1 hmem with hmem | hmem
        · exact hmem
        · rw [mem_singleton.1 hmem, hfree] at hreal
          cases hreal
      obtain ⟨before, after, hinit⟩ := append_of_mem hinit
      obtain ⟨hlevel, -⟩ := hn.level x hx y hy o before (after ++ p :: id :: inner) outer' (id :: inner') (houter o ho)
        (by simp [hlevels, hinit]) hlevels'
      have hshort : before.length < init.length := by simp [hinit]
      simp only [length_append, length_singleton] at hlength
      omega

end Kernel

theorem Code.Marks.exists_bounds {k : Kernel} {inserted path : List LoopId} {c body : Code}
    {b e : Expr}
    (hc : c.Marks k inserted path) (h : (b, e, body) ∈ c.loops) : ∃ around l, Code.Bounds k around b e l := by
  induction c generalizing path with
  | done => cases h
  | op x rest ih => exact ih hc.2 h
  | loop b0 e0 body0 rest ihbody ihrest =>
    obtain ⟨l, hbounds, -, -, hbody, hrest⟩ := hc
    rcases mem_cons.1 h with h | h
    · cases h
      exact ⟨path, l, hbounds⟩
    · rcases mem_append.1 h with h | h
      · exact ihbody hbody h
      · exact ihrest hrest h

namespace Markers

variable {k k' : Kernel} {inserted path : List LoopId} {c : Code} {b e b' e' : Expr}
  {l : LoopParams} {id o : LoopId}

/-- A loop of the marked kernel was inserted. -/
theorem Marked.mem_inserted (hm : Marked k k' inserted c) (hpair : k'.LoopPair id b e) :
    id ∈ inserted := by
  obtain ⟨hid, body, hloop⟩ := hm.bracketed.loopPair_iff.1 hpair
  exact hm.names.mem_iff.1 (Code.mem_names_iff.2 ⟨b, e, body, hloop, hid⟩)

/-- The loops that enclose a loop are those its markers are tagged with. -/
theorem Marked.encloses_iff (hm : Marked k k' inserted c) (hpair : k'.LoopPair id b e)
    (hbounds : Code.Bounds k path b e l) (houter : k'.LoopPair o b' e') :
    k'.Encloses b' e' b e ↔ o ∈ path := by
  have hreal : o.isSentinel = false := hm.real o (hm.mem_inserted houter)
  rw [Kernel.Encloses, hm.bracketed.between_iff houter hpair.opening, hm.bracketed.between_iff houter hpair.closing]
  constructor
  · rintro ⟨htag, -⟩
    rw [← hbounds.opening]
    exact LoopId.mem_loops.2 ⟨htag, hreal⟩
  · intro ho
    exact ⟨(LoopId.mem_loops.1 (hbounds.opening ▸ ho)).1, (LoopId.mem_loops.1 (hbounds.closing ▸ ho)).1⟩

/-- A loop that the markers of another one are tagged with has markers. -/
theorem Marked.exists_outer (hm : Marked k k' inserted c) (hpair : k'.LoopPair id b e)
    (hbounds : Code.Bounds k path b e l) (ho : o ∈ path) : ∃ b' e', k'.LoopPair o b' e' := by
  have hmarker : b.kind.isMarker = true := by
    rw [hpair.opens]
    rfl
  have hinserted : o ∈ inserted :=
    hm.markers b (hm.lists.sequence ▸ hpair.opening) hmarker o (hbounds.opening ▸ ho)
  obtain ⟨b', e', houter, -⟩ := hm.bracketed.existsUnique_loopPair (hm.names.mem_iff.2 hinserted)
  exact ⟨b', e', houter⟩

/-- Materializing the loops of a kernel sets the flag of a loop exactly if the loop at the next
    level outside it encloses it; where each expression has its loops at adjacent levels, exactly if
    any loop does. -/
theorem run_flags_enclosed {changed : Bool} (hk : k.Unmarked) (hn : k.WellNested)
    (hrun : run k = .ok changed k')
    (he : e ∈ k'.sequence) (hkind : e.kind = .loopEnd) :
    ∃ id b l, k'.LoopPair id b e ∧ e.loop = some l ∧
      (l.hasOuterLoop = true ↔ ∃ o b' e', k'.LoopPair o b' e' ∧ k'.Encloses b' e' b e ∧ k.Adjoins o id) ∧
      (k.Stacked → (l.hasOuterLoop = true ↔ ∃ o b' e', k'.LoopPair o b' e' ∧ k'.Encloses b' e' b e)) := by
  rcases run_cases hk hn with ⟨changed', k'', inserted, c, hrun', hm, -⟩ | ⟨-, f, k'', hrun'⟩
  swap
  · rw [hrun] at hrun'
    cases hrun'
  rw [hrun] at hrun'
  cases hrun'
  obtain ⟨b, body, hloop⟩ := hm.bracketed.exists_loop_of_closing he hkind
  obtain ⟨path, l, hbounds⟩ := hm.marks.exists_bounds hloop
  obtain ⟨flag, hends, x, hx, outer, inner, hlevels, hpath, hflag⟩ := hbounds.ends
  have hpair : k'.LoopPair l.id b e :=
    hm.bracketed.loopPair_iff.2 ⟨by rw [hends.1]; rfl, body, hloop⟩
  have hinserted := hm.mem_inserted hpair
  have hsome : ∀ o ∈ LoopId.loops outer, k.HasLoop o := by
    intro o ho
    have hmem := hm.around x hx outer l.id inner hlevels hinserted o ho
    exact ⟨hm.real o hmem, hm.known o hmem⟩
  have hset : l.hasOuterLoop = true ↔ LoopId.endInLoop outer = true := by
    rw [hends.hasOuterLoop hends.1, hflag]
  refine ⟨l.id, b, l, hpair, hends.1, ?_, ?_⟩
  · rw [hset, hn.endInLoop_iff hx ⟨hbounds.real, hm.known _ hinserted⟩ hlevels hsome, hpath]
    constructor
    · rintro ⟨o, ho, hadjoins⟩
      obtain ⟨b', e', houter⟩ := hm.exists_outer hpair hbounds ho
      exact ⟨o, b', e', houter, (hm.encloses_iff hpair hbounds houter).2 ho, hadjoins⟩
    · rintro ⟨o, b', e', houter, hencloses, hadjoins⟩
      exact ⟨o, (hm.encloses_iff hpair hbounds houter).1 hencloses, hadjoins⟩
  · intro hs
    rw [hset, LoopId.endInLoop_eq hbounds.real (hlevels ▸ hs x hx), hpath, Bool.not_eq_true',
      isEmpty_eq_false_iff_exists_mem]
    constructor
    · rintro ⟨o, ho⟩
      obtain ⟨b', e', houter⟩ := hm.exists_outer hpair hbounds ho
      exact ⟨o, b', e', houter, (hm.encloses_iff hpair hbounds houter).2 ho⟩
    · rintro ⟨o, b', e', houter, hencloses⟩
      exact ⟨o, (hm.encloses_iff hpair hbounds houter).1 hencloses⟩

/-- A loop over eight elements in a loop over two rows. -/
def rowLoops : Builder :=
  let row (id : TensorId) : Tensor := { TensorType.planar .float32 [2, 8] with id }
  (Builder.start {} .float32 2 8).after
    [.parameter [2, 8], .load (row 0), .store (row 1), .loop (some 0) 1 8 8, .loop (some 0) 0 2 1, .result (row 2)]

/-- The kernel with its loops materialized, if that succeeds. -/
def materialized? (k : Kernel) : Option Kernel := EStateM.run' (do let _ ← run; get) k

theorem exists_run_of_materialized (h : materialized? k = some k') :
    ∃ changed, run k = .ok changed k' := by
  obtain ⟨k'', hboth⟩ := exists_of_run' h
  obtain ⟨changed, m, hrun, hget⟩ := of_bind_run_ok hboth
  cases hget
  exact ⟨changed, hrun⟩

/-- The kernel of two rows with markers. -/
def markedRows : Kernel := (materialized? rowLoops.kernel).getD default

theorem materialized_rowLoops : materialized? rowLoops.kernel = some markedRows := by decide +kernel

/-- The loop over elements has its flag set, and the loop over rows, at the next level, encloses
    it. -/
theorem run_flags_enclosed_rows : ∃ changed, run rowLoops.kernel = .ok changed markedRows ∧
    ∃ e ∈ markedRows.sequence, e.kind = .loopEnd ∧ ∃ id b l, markedRows.LoopPair id b e ∧ e.loop = some l ∧
      l.hasOuterLoop = true ∧ ∃ o b' e', markedRows.LoopPair o b' e' ∧ markedRows.Encloses b' e' b e ∧
        rowLoops.kernel.Adjoins o id := by
  obtain ⟨changed, hrun⟩ := exists_run_of_materialized materialized_rowLoops
  have hk : rowLoops.kernel.Unmarked := ((Built.start _ _ _ _).after (by decide +kernel)).plain.unmarked
  have hn : rowLoops.kernel.WellNested := by
    apply Kernel.WellNested.of_agree <;> decide +kernel
  obtain ⟨e, he, hkind, hset⟩ : ∃ e ∈ markedRows.sequence, e.kind = .loopEnd ∧
      e.loop.map LoopParams.hasOuterLoop = some true := by decide +kernel
  obtain ⟨id, b, l, hpair, hl, hflag, -⟩ := run_flags_enclosed hk hn hrun he hkind
  have houter : l.hasOuterLoop = true := by
    rw [hl] at hset
    exact Option.some.inj hset
  exact ⟨changed, hrun, e, he, hkind, id, b, l, hpair, hl, houter, hflag.1 houter⟩

/-- The kernel of the twins with markers. -/
def markedTwins : Kernel := (materialized? twinLoops.kernel).getD default

theorem materialized_twinLoops :
    materialized? twinLoops.kernel = some markedTwins := by decide +kernel

/-- With a free level between them, a loop has no flag although another one encloses it. -/
theorem run_flags_free_level : ∃ changed, run twinLoops.kernel = .ok changed markedTwins ∧
    ∃ b e b' e', markedTwins.LoopPair 0 b e ∧ e.loop.map LoopParams.hasOuterLoop = some false ∧
      markedTwins.LoopPair 2 b' e' ∧ markedTwins.Encloses b' e' b e := by
  obtain ⟨changed, hrun⟩ := exists_run_of_materialized materialized_twinLoops
  refine ⟨changed, hrun, markedTwins.expr 8, markedTwins.expr 9, markedTwins.expr 6, markedTwins.expr 7, ?_, ?_, ?_, ?_,
    ?_⟩
  · apply Kernel.LoopPair.mk <;> decide +kernel
  · decide +kernel
  · apply Kernel.LoopPair.mk <;> decide +kernel
  · unfold Kernel.Between
    decide +kernel
  · unfold Kernel.Between
    decide +kernel

end Markers

end KernelLoops
