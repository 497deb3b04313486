import KernelLoops.Proofs.Marking

set_option autoImplicit false

/-! # The materialized nest

Materializing loops that nest turns the tags of a kernel into brackets and loses nothing: the loops
that tag a visited expression have one pair of markers each, there are no other markers, and what a
loop tags is what stands between its markers. -/

namespace KernelLoops.Markers

variable {k k' : Kernel} {inserted : List LoopId} {c : Code}

/-- A loop is materialized if it tags an expression that is visited. -/
def Materialized (k : Kernel) (id : LoopId) : Prop :=
  id.isSentinel = false ∧ ∃ x ∈ k.sequence, visited x = true ∧ id ∈ x.loopIds

/-- A marked kernel is bracketed. -/
theorem Marked.bracketed (hm : Marked k k' inserted c) : k'.Bracketed c where
  lists := hm.lists
  nested := hm.nested
  apart := hm.names.nodup_iff.2 hm.once
  labelled := by
    apply hm.labelled.congr
    intro id
    exact hm.names.mem_iff.symm

/-- Materializing the loops of a kernel materializes exactly the nest: every loop that tags a
    visited expression has one pair of markers, there are no other markers, the markers are
    balanced, without them the expressions are what they were, and an expression lies between the
    markers of a loop exactly if the loop tags it. -/
theorem run_materializes {changed : Bool} (hk : k.Unmarked) (hn : k.WellNested)
    (hrun : run k = .ok changed k') :
    (∀ id, Materialized k id → ∃ b e, k'.LoopPair id b e ∧ ∀ b' e', k'.LoopPair id b' e' → b' = b ∧ e' = e) ∧
      (∀ x ∈ k'.sequence, x.kind.isMarker = true →
        ∃ id, Materialized k id ∧ ∃ b e, k'.LoopPair id b e ∧ (x = b ∨ x = e)) ∧
      k'.Balanced [] k'.sequence ∧
      k'.sequence.filter (fun x => !x.kind.isMarker) = k.sequence ∧
      ∀ id b e, k'.LoopPair id b e → ∀ x ∈ k.sequence, k'.Between b x e ↔ id ∈ x.loopIds := by
  rcases run_cases hk hn with ⟨changed', k'', inserted, c, hrun', hm, hall⟩ | ⟨-, f, k'', hrun'⟩
  swap
  · rw [hrun] at hrun'
    cases hrun'
  rw [hrun] at hrun'
  cases hrun'
  have hbrackets := hm.bracketed
  have hops : k'.sequence.filter (fun x => !x.kind.isMarker) = k.sequence := by
    rw [hm.lists.sequence, hm.nested.filter_flatten, hm.ops]
  refine ⟨?_, ?_, hbrackets.balanced, hops, ?_⟩
  · rintro id ⟨hreal, x, hx, hv, htag⟩
    have hid : id ∈ inserted := hall x hx hv id (LoopId.mem_loops.2 ⟨htag, hreal⟩)
    exact hbrackets.existsUnique_loopPair (hm.names.mem_iff.2 hid)
  · intro x hx hkind
    obtain ⟨id, hid, hpair⟩ := hbrackets.exists_loopPair_of_marker hx hkind
    have hinserted : id ∈ inserted := hm.names.mem_iff.1 hid
    exact ⟨id, ⟨hm.real id hinserted, hm.needed id hinserted⟩, hpair⟩
  · intro id b e hpair x hx
    rw [← hops] at hx
    exact hbrackets.between_iff hpair (List.mem_of_mem_filter hx)

/-- Two loops over rows of eight elements next to each other in a loop over two rows, with a free
    level between them. -/
def twinLoops : Builder :=
  let row (id : TensorId) : Tensor := { TensorType.planar .float32 [2, 1, 8] with id }
  (Builder.start {} .float32 3 8).after
    [.parameter [2, 1, 8],
      .load (row 0), .store (row 1), .loop (some 0) 2 8 8,
      .load (row 2), .store (row 3), .loop (some 2) 2 8 8,
      .loop (some 0) 0 2 1, .result (row 4)]

theorem twinLoops_unmarked : twinLoops.kernel.Unmarked :=
  ((Built.start _ _ _ _).after (by decide +kernel)).plain.unmarked

theorem twinLoops_nested : twinLoops.kernel.WellNested := by
  apply Kernel.WellNested.of_agree <;> decide +kernel

/-- The first inner loop of the twins has one pair of markers, with the load and the store between
    them. -/
theorem run_materializes_twins : ∃ changed k', run twinLoops.kernel = .ok changed k' ∧
    ∃ b e, k'.LoopPair 0 b e ∧ (∀ b' e', k'.LoopPair 0 b' e' → b' = b ∧ e' = e) ∧
      ∀ x ∈ twinLoops.kernel.sequence, k'.Between b x e ↔ (0 : LoopId) ∈ x.loopIds := by
  obtain ⟨k', hrun⟩ := exists_of_run' (by decide +kernel : run.run' twinLoops.kernel = some true)
  obtain ⟨hpairs, -, -, -, hbetween⟩ := run_materializes twinLoops_unmarked twinLoops_nested hrun
  have hmaterialized : Materialized twinLoops.kernel 0 := by
    unfold Materialized
    decide +kernel
  obtain ⟨b, e, hpair, hunique⟩ := hpairs 0 hmaterialized
  exact ⟨true, k', hrun, b, e, hpair, hunique, hbetween 0 b e hpair⟩

end KernelLoops.Markers
