import KernelLoops.Proofs.Painting
import KernelLoops.Proofs.TowerIndices

set_option autoImplicit false

/-! # Painting with towers

A tower of loops around a body, its tail split off: a machine can turn at its markers, what it runs
are the body and the copy in the tail, and the tower paints what these paint, run by run
(`LowersTo.paints`). A body that carries elements through, wherever a tower puts it and however many
elements a run handles, makes the tower paint, the copy of the body in the tail included
(`LowersTo.paints_of_carries`). -/

namespace KernelLoops

open List

variable {α : Type} {e x : Expr} {l : LoopParams} {L : Layout}

/-! ## Turning -/

theorem Expr.Turns.withParams {l' : LoopParams} (h : e.Turns L l)
    (hcloses : (e.withParams l').Closes l')
    (hstep : 0 < l'.increment) (hnum : l'.numOperands = l.numOperands) : (e.withParams l').Turns L l' :=
  ⟨hcloses, hstep, by rw [hnum]; exact h.few, by rw [hnum]; exact h.known⟩

theorem Expr.Turns.optimized (h : e.Turns L l) (optimize force : Bool) :
    (e.withParams (l.optimized optimize force)).Turns L (l.optimized optimize force) := by
  obtain ⟨offsets, once, heq⟩ := LoopParams.optimized_eq optimize force l
  refine h.withParams (h.closes.optimized optimize force) ?_ ?_
  · rw [heq]
    exact h.step
  · rw [heq]
    rfl

/-- The tail of a loop can be turned, also under new names that leave its operands alone. -/
theorem Expr.Turns.tail (h : e.Turns L l) (he : e.Whole l) (hrest : l.workAmount % l.increment ≠ 0)
    {table : List (TensorId × Tensor)} (hkept : ∀ t ∈ e.inputs.take l.ptrIncrements.length, table.lookup t.id = none) :
    ((e.rename table).withParams (l.tail (l.workAmount % l.increment))).Turns L
      (l.tail (l.workAmount % l.increment)) := by
  have hcloses := he.closes_tail
  refine ⟨⟨rfl, hcloses.static, hcloses.steps, hcloses.offsets, ?_⟩,
    (Amount.mod_pos he.work he.step hrest).1, h.few, ?_⟩
  · rw [Expr.withParams, Expr.rename, length_map]
    exact hcloses.inputs
  · intro t ht
    have ht' : t ∈ (e.inputs.map (RangeCopy.rename table)).take l.numOperands.trips := ht
    rw [← map_take, mem_map] at ht'
    obtain ⟨u, hu, rfl⟩ := ht'
    have hnone := hkept u (by rw [h.closes.steps]; exact hu)
    rw [RangeCopy.rename, hnone]
    exact h.known u hu

variable {inc size : Amount} {m : Kernel} {xs tail : List Expr} {ms : List (Expr × Expr)}
  {out : List TensorId}
  {n : TensorId} {c : Code} {outer : Bool} {sizes : List Amount} {rs : List Shift}

namespace Code

variable {blocks : Bool} {b : Expr} {body copy : Code}

theorem turns_ofOps (xs : List Expr) (hc : c.Turns L) : (ofOps xs c).Turns L := by
  induction xs with
  | nil => exact hc
  | cons x xs ih => exact ih

/-- A loop that can be turned can be turned when it is split. -/
theorem Splits.turns (h : Splits blocks m b e l body out n c copy) (he : e.Whole l)
    (hturns : e.Turns L l)
    (hoperands : l.workAmount % l.increment ≠ 0 → ∀ t ∈ e.inputs.take l.ptrIncrements.length,
      t.id ∈ out ∨ ∀ u ∈ (loop b e body done).outputs, u.id ≠ t.id) (hbody : body.Turns L) (hcopy : copy.Turns L) :
    c.Turns L := by
  cases h with
  | idle => exact ⟨⟨l, hturns⟩, hbody, trivial⟩
  | even => exact ⟨⟨_, hturns.optimized _ _⟩, hbody, trivial⟩
  | @both table copy odd vector leaves copied force =>
    have hvector := (hturns.withParams he.closes_shortened he.step rfl).optimized m.config.evaluateOnce true
    have htail := (hturns.tail he odd fun t ht => leaves t.id (hoperands odd t ht)).optimized m.config.evaluateOnce
      force
    exact ⟨⟨_, hvector⟩, hbody, ⟨_, htail⟩, hcopy, trivial⟩
  | @tail copy odd short copied force =>
    have htail := (hturns.withParams he.closes_tail
      (Amount.mod_pos he.work he.step odd).1 rfl).optimized m.config.evaluateOnce force
    exact ⟨⟨_, htail⟩, hcopy, trivial⟩

/-- A split loop holds markers, the body where there is a whole step, and the copy where there is a
    rest. -/
theorem Splits.mem_flatten (h : Splits blocks m b e l body out n c copy)
    (hb : b.kind.isMarker = true)
    (he : e.kind.isMarker = true) (hwork : l.workAmount ≠ 0) (h0 : 0 ≤ l.workAmount) (hx : x ∈ c.flatten) :
    x.kind.isMarker = true ∨ x ∈ body.flatten ∧ l.increment ≤ l.workAmount ∨
      x ∈ copy.flatten ∧ l.workAmount % l.increment ≠ 0 := by
  cases h with
  | idle work => exact absurd work hwork
  | even work even force =>
    have hle := Amount.le_of_mod_eq_zero h0 hwork even
    simp only [flatten, mem_cons, mem_append, not_mem_nil, or_false] at hx
    rcases hx with rfl | hx | rfl
    · exact .inl hb
    · exact .inr (.inl ⟨hx, hle⟩)
    · exact .inl he
  | @both table copy odd vector leaves copied force =>
    simp only [flatten, mem_cons, mem_append, not_mem_nil, or_false] at hx
    rcases hx with rfl | hx | rfl | rfl | hx | rfl
    · exact .inl hb
    · exact .inr (.inl ⟨hx, vector⟩)
    · exact .inl he
    · exact .inl hb
    · exact .inr (.inr ⟨hx, odd⟩)
    · exact .inl he
  | @tail copy odd short copied force =>
    simp only [flatten, mem_cons, mem_append, not_mem_nil, or_false] at hx
    rcases hx with rfl | hx | rfl
    · exact .inl hb
    · exact .inr (.inr ⟨hx, odd⟩)
    · exact .inl he

end Code

/-! ## Painting with a tower -/

namespace LowersTo

variable (h : LowersTo inc m xs tail outer sizes rs ms out n c)

include h

/-- A tower whose markers can be turned at can be run. -/
theorem turns (hturns : ∀ p ∈ ms, ∀ l, p.2.loop = some l → p.2.Turns L l) : c.Turns L := by
  induction h with
  | innermost strides work step around kept splits =>
    exact splits.turns strides.whole (hturns _ mem_cons_self _ strides.whole.closes.params) (fun _ => kept)
      (Code.turns_ofOps xs trivial) (Code.turns_ofOps tail trivial)
  | outer inside strides work step around splits ih =>
    exact splits.turns strides.whole (hturns _ mem_cons_self _ strides.whole.closes.params)
      (fun h => absurd (LoopParams.mod_of_one step) h) (ih fun p hp => hturns p (mem_cons_of_mem _ hp)) trivial

/-- A lowered tower over positive sizes holds markers, the body where the innermost loop makes a
    whole step, and the copy where it does not come out even. -/
theorem mem_flatten (hsizes : ∀ d ∈ sizes, 0 < d)
    (hmarkers : ∀ p ∈ ms, p.1.kind.isMarker = true ∧ p.2.kind.isMarker = true) (hne : sizes ≠ [])
    (hx : x ∈ c.flatten) :
    x.kind.isMarker = true ∨ x ∈ xs ∧ inc ≤ sizes.getLast hne ∨ x ∈ tail ∧ sizes.getLast hne % inc ≠ 0 := by
  have hpos : ∀ {d : Amount}, 0 < d → d ≠ 0 := by
    rintro d hd rfl
    exact Int64.lt_irrefl hd
  induction h generalizing x with
  | innermost strides work step around kept splits =>
    obtain ⟨hb, he⟩ := hmarkers _ mem_cons_self
    have hmem := splits.mem_flatten hb he (work ▸ hpos (hsizes _ mem_cons_self)) strides.whole.work hx
    rw [step, work, Code.flatten_ofOps, Code.flatten_ofOps, Code.flatten, append_nil, append_nil] at hmem
    exact hmem
  | outer inside strides work step around splits ih =>
    obtain ⟨hb, he⟩ := hmarkers _ mem_cons_self
    rw [getLast_cons inside.ne_nil]
    rcases splits.mem_flatten hb he (work ▸ hpos (hsizes _ mem_cons_self)) strides.whole.work hx with
      hmarker | ⟨hx, -⟩ | ⟨hx, -⟩
    · exact .inl hmarker
    · exact ih (fun d hd => hsizes d (mem_cons_of_mem _ hd)) (fun p hp => hmarkers p (mem_cons_of_mem _ hp))
        inside.ne_nil hx
    · cases hx

/-- A lowered tower whose jobs work paints what they hit. -/
theorem paints {A : Arithmetic α} {K : Canvas α} {q : Shift}
    (hworks : ∀ j ∈ towerJobs inc xs tail sizes rs, j.Works A L q K.want K.source K.target) :
    Paints A L K q c.journey.stops fun b i =>
      ∃ j ∈ towerJobs inc xs tail sizes rs, hits L (q + j.shift) j.count j.body b i := by
  obtain ⟨d, hjourney, -⟩ := h.journey
  rw [hjourney]
  exact .of_jobs hworks

end LowersTo

/-! ## Carrying elements through a tower -/

/-- The body can take `c` elements through at once, the tensors standing at the positions: it writes
    the wanted values, into the target only, and what it takes from blocks comes from outside the
    target. -/
structure Carries (A : Arithmetic α) (L : Layout) (K : Canvas α) (q : Shift) (c : Nat)
    (xs : List Expr) : Prop where
  flow : ∃ W mems, Flow A L q c W mems [] xs ∧ Delivers L q c W K.want xs ∧
    ∀ w ∈ mems, ∃ b, L.home w.1 = some b ∧ ¬K.target b ∧
      ∀ i < w.2, K.source.cells b ((q w.1).toInt.toNat + i) = W w.1 i
  targets : ∀ t ∈ stored xs, ∀ b, L.home t.id = some b → K.target b

namespace Carries

variable {A : Arithmetic α} {K : Canvas α} {q d : Shift} {c : Nat}

theorem works (h : Carries A L K (q + d) c xs) (hcounted : Counted c xs) (hlanes : c ≤ L.lanes) :
    (⟨d, c, xs⟩ : Job).Works A L q K.want K.source K.target :=
  ⟨h.flow, hcounted, hlanes, h.targets⟩

/-- The copy of a body in a tail carries what the body does and hits the same cells, and each of its
    expressions handles as many elements. -/
theorem copied (h : Carries A L K q c xs) {made : List Tensor}
    (hcopy : CopiedOps size out made n xs tail) (hsize : size.toInt = c) (hbelow : Below n xs) (hbroad : Broad xs)
    (hmade : ∀ t ∈ made, t.id ∉ out → L.home t.id = none) (hfresh : ∀ i, n ≤ i → L.home i = none) :
    Carries A L K q c tail ∧ Counted c tail ∧ ∀ b i, hits L q c tail b i ↔ hits L q c xs b i := by
  obtain ⟨W, mems, hflow, hdelivers, hmems⟩ := h.flow
  obtain ⟨table, n', htable, hleaves, hnames, rfl⟩ := hcopy
  -- only what is made inside and not read outside is renamed, and that has no block
  have hadmits : L.Admits table := by
    intro i u hu
    obtain ⟨t, ht, rfl, -⟩ := hnames i u hu
    refine ⟨hmade t ht fun hout => ?_, hfresh u.id (htable.fresh t.id u hu).1⟩
    rw [hleaves t.id (.inl hout)] at hu
    cases hu
  have hmems' : ∀ w ∈ mems, w.1 < n := by
    intro w hw
    obtain ⟨b, hb, -⟩ := hmems w hw
    by_contra hnot
    rw [hfresh w.1 (Nat.not_lt.1 hnot)] at hb
    cases hb
  obtain ⟨W1, hlanes⟩ := exists_renamed_lanes htable W
  have hrenamed := hflow.rename hadmits hbelow hlanes
  have hbroad' : Broad (xs.map (Expr.rename table)) := by
    intro y hy
    obtain ⟨x, hx, rfl⟩ := mem_map.1 hy
    exact hbroad x hx
  have hstored := (stored_resized size (xs.map (Expr.rename table))).trans (stored_rename table xs)
  have hstoredBelow : ∀ t ∈ stored xs, t.id < n := by
    intro t ht
    obtain ⟨x, hx, htx⟩ := mem_flatMap.1 ht
    split at htx
    · exact (hbelow x hx).2 t htx
    · cases htx
  refine ⟨⟨⟨W1, _, hrenamed.resized size, ?_, ?_⟩, ?_⟩, .resized hsize hbroad', fun b i => ?_⟩
  · intro t ht b hb s hs i hi
    rw [hstored] at ht
    obtain ⟨u, hu, rfl⟩ := mem_map.1 ht
    rw [id_rename] at hb hs ⊢
    rw [hadmits.home] at hb
    have hsame := hadmits.newName_of_home hb
    rw [hlanes u.id (hstoredBelow u hu)]
    rw [hsame] at hs
    exact hdelivers u hu b hb s hs i hi
  · intro w hw
    obtain ⟨w', hw', rfl⟩ := mem_map.1 hw
    obtain ⟨b, hb, hnot, hcells⟩ := hmems w' hw'
    have hsame := hadmits.newName_of_home hb
    refine ⟨b, by rw [hadmits.home]; exact hb, hnot, fun i hi => ?_⟩
    rw [hlanes w'.1 (hmems' w' hw'), hsame]
    exact hcells i hi
  · intro t ht b hb
    rw [hstored] at ht
    obtain ⟨u, hu, rfl⟩ := mem_map.1 ht
    rw [id_rename, hadmits.home] at hb
    exact h.targets u hu b hb
  · rw [hits, hits, hstored]
    constructor
    · rintro ⟨t, ht, hb, hhit⟩
      obtain ⟨u, hu, rfl⟩ := mem_map.1 ht
      rw [id_rename, hadmits.home] at hb
      rw [id_rename, hadmits.newName_of_home hb] at hhit
      exact ⟨u, hu, hb, hhit⟩
    · rintro ⟨u, hu, hb, hhit⟩
      refine ⟨_, mem_map_of_mem hu, ?_, ?_⟩
      · rw [id_rename, hadmits.home]
        exact hb
      · rw [id_rename, hadmits.newName_of_home hb]
        exact hhit

end Carries

/-- A tower around a body that carries the elements of every run paints what the body hits there.
    Tensors that are made inside and not read outside have no block, and neither have the names that
    are still free. -/
theorem LowersTo.paints_of_carries (h : LowersTo inc m xs tail outer sizes rs ms out n c)
    (hinc : 0 < inc)
    (hsizes : ∀ d ∈ sizes, 0 < d) {A : Arithmetic α} {K : Canvas α} {q : Shift}
    (hcarries : ∀ index c tail, Spot inc sizes index c tail →
      Carries A L K (q + along rs index) c xs ∧ c ≤ L.lanes) (hplain : ∀ x ∈ xs, x.fills = [])
    (hcounted : Counted inc.trips xs) (hbelow : Below n xs) (hbroad : inc ≠ 1 → Broad xs)
    (hmade : ∀ t ∈ (Code.wrap ms (.ofOps xs .done)).outputs, t.id ∉ out → L.home t.id = none)
    (hfresh : ∀ i, n ≤ i → L.home i = none) :
    Paints A L K q c.journey.stops fun b i => ∃ index c tail, Spot inc sizes index c tail ∧
      hits L (q + along rs index) c xs b i := by
  have hne := h.ne_nil
  have hnonneg : ∀ d ∈ sizes, 0 ≤ d := fun d hd => Int64.le_of_lt (hsizes d hd)
  -- the copy in the tail carries what the body carries there
  have hcopy : ∀ index c, Spot inc sizes index c true →
      Carries A L K (q + along rs index) c tail ∧ Counted c tail ∧
        ∀ b i, hits L (q + along rs index) c tail b i ↔ hits L (q + along rs index) c xs b i := by
    intro index c hspot
    obtain ⟨hc, hrest⟩ := (hspot.count_eq hne).2 rfl
    have hlast := hnonneg _ (getLast_mem hne)
    have hcount := (Amount.toInt_mod_bounds hlast hinc).1
    refine (hcarries index c true hspot).1.copied (h.copied hplain hrest) ?_ hbelow (hbroad fun hone => hrest ?_) hmade
      hfresh
    · rw [hc, Amount.trips]
      exact (Int.toNat_of_nonneg hcount).symm
    · rw [hone]
      exact Int64.mod_one
  have hjobs := fun {j : Job} => mem_towerJobs_iff hinc xs tail h.length_rates (j := j)
  refine (h.paints fun j hj => ?_).congr fun b i => ?_
  · obtain ⟨index, c, last, hspot, rfl⟩ := hjobs.1 hj
    obtain ⟨hcarry, hlanes⟩ := hcarries index c last hspot
    cases last with
    | false =>
      have hc := (hspot.count_eq hne).1 rfl
      exact hcarry.works (hc ▸ hcounted) hlanes
    | true =>
      obtain ⟨hcarry', hcounted', -⟩ := hcopy index c hspot
      exact hcarry'.works hcounted' hlanes
  · constructor
    · rintro ⟨j, hj, hhit⟩
      obtain ⟨index, c, last, hspot, rfl⟩ := hjobs.1 hj
      refine ⟨index, c, last, hspot, ?_⟩
      cases last with
      | false => exact hhit
      | true => exact ((hcopy index c hspot).2.2 b i).1 hhit
    · rintro ⟨index, c, last, hspot, hhit⟩
      refine ⟨_, hjobs.2 ⟨index, c, last, hspot, rfl⟩, ?_⟩
      cases last with
      | false => exact hhit
      | true => exact ((hcopy index c hspot).2.2 b i).2 hhit

end KernelLoops
