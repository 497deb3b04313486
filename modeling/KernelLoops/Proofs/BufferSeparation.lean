import Mathlib
import KernelLoops.Proofs.Built
import KernelLoops.Proofs.Placement

set_option autoImplicit false

/-! # Which buffers share memory

The standard pipeline places buffers by color, and colors come from the way loops step buffers. So
buffers that clash in some loop never share a byte, however long they live, while two buffers that
are in use at the same time do share memory when every loop steps them alike. -/

namespace KernelLoops

variable {k : Kernel} {x y : Expr} {m n : Amount}

/-- The bytes of scratch memory that a buffer of `n` bytes takes. -/
def Expr.bytes (x : Expr) (n : Amount) : Set Int :=
  Set.Ico x.bufferOffset.toInt (x.bufferOffset.toInt + n.toInt)

namespace Pipeline

/-- A pipeline that ends well went through its first pass. -/
theorem of_run_cons {p : Pass} {rest : List Pass} (h : (run k (p :: rest)).failure = none) :
    ∃ changed k1, p.run k = .ok changed k1 ∧ (run k1 rest).failure = none ∧
      (run k (p :: rest)).kernel = (run k1 rest).kernel := by
  rw [run] at h ⊢
  cases hp : p.run k with
  | error f k1 =>
    rw [hp] at h
    cases h
  | ok changed k1 =>
    rw [hp] at h
    exact ⟨changed, k1, rfl, h, rfl⟩

/-- The stages of the standard pipeline: a tidy kernel with its loops split, then colored, then
    placed. -/
theorem of_standard_ok {A : List Amount → Prop} (hk : k.Tidy A)
    (h : (run k standard).failure = none) :
    ∃ split colored changed changed', split.Tidy A ∧ Buffers.color split = .ok changed colored ∧
      Buffers.place colored = .ok changed' (run k standard).kernel := by
  obtain ⟨c1, k1, hfusion, h1, heq1⟩ := of_run_cons h
  obtain ⟨c2, k2, hmarkers, h2, heq2⟩ := of_run_cons h1
  obtain ⟨c3, k3, htails, h3, heq3⟩ := of_run_cons h2
  obtain ⟨c4, k4, hcolor, h4, heq4⟩ := of_run_cons h3
  obtain ⟨c5, k5, hplace, -, heq5⟩ := of_run_cons h4
  have hend {α : Type} {step : Edit α} (hkeeps : Keeps (Kernel.Tidy A) step) {k k' : Kernel} {a : α}
      (hk : k.Tidy A) (hrun : step k = .ok a k') : k'.Tidy A := by
    have := hkeeps k hk
    rwa [hrun] at this
  refine ⟨k3, k4, c4, c5, ?_, hcolor, ?_⟩
  · exact hend Tails.tidy_run (hend Markers.tidy_run (hend Fusion.tidy_run hk hfusion) hmarkers) htails
  · rw [standard, heq1, heq2, heq3, heq4, heq5]
    exact hplace

end Pipeline

/-- Ranges that start together meet, unless one is empty. -/
theorem disjoint_bytes_of_shared (hm : 0 ≤ m.toInt) (hn : 0 ≤ n.toInt)
    (hshared : x.bufferOffset = y.bufferOffset) :
    Disjoint (x.bytes m) (y.bytes n) ↔ m = 0 ∨ n = 0 := by
  simp only [Expr.bytes, hshared, Set.Ico_disjoint_Ico, Amount.eq_iff, Int64.toInt_zero]
  omega

/-- Ranges of which one ends before the other starts do not meet. -/
theorem disjoint_bytes_of_apart
    (h : x.bufferOffset.toInt + m.toInt ≤ y.bufferOffset.toInt ∨
    y.bufferOffset.toInt + n.toInt ≤ x.bufferOffset.toInt) :
    Disjoint (x.bytes m) (y.bytes n) := by
  rw [Expr.bytes, Expr.bytes, Set.Ico_disjoint_Ico]
  omega

/-- After the standard pipeline, two buffers have bytes in common exactly when they have one color
    and neither is empty; buffers that clash in some loop never do. -/
theorem Pipeline.standard_separates_clashing {b : Builder} (hb : Built b)
    (hnonneg : ∀ e, ∀ n ∈ (b.kernel.expr e).allocation, 0 ≤ n)
    (hok : (run b.kernel standard).failure = none)
    (hfits : (run b.kernel standard).kernel.FitsScratch) {x y : ExprId}
    (hx : x ∈ (run b.kernel standard).kernel.ofKind .buffer)
    (hy : y ∈ (run b.kernel standard).kernel.ofKind .buffer) (hne : x ≠ y) :
    let k := (run b.kernel standard).kernel
    ∃ m n, (k.expr x).byteSize = .ok m ∧ (k.expr y).byteSize = .ok n ∧
      (k.Clash x y → Disjoint ((k.expr x).bytes m) ((k.expr y).bytes n)) ∧
      (Disjoint ((k.expr x).bytes m) ((k.expr y).bytes n) ↔
        (k.expr x).bufferId ≠ (k.expr y).bufferId ∨ m = 0 ∨ n = 0) := by
  intro k
  have htidy : b.kernel.Tidy fun ns => ∀ n ∈ ns, 0 ≤ n :=
    ⟨hb.plain.lists.order ▸ hb.plain.lists.nodup, by simp, hnonneg⟩
  obtain ⟨split, colored, _, _, hsplit, hcolor, hplace⟩ := of_standard_ok htidy hok
  obtain ⟨hsame, hcolors⟩ := Buffers.of_color_ok hsplit.nodup hcolor
  have hplan : Buffers.SamePlan colored k := by
    have hkeeps : Keeps (Buffers.SamePlan colored) Buffers.place := Buffers.SamePlan.place
    have := hkeeps colored (.refl colored)
    rwa [hplace] at this
  -- Before the placement, the kernel has the buffers, allocations and clashes of the end.
  have hun : k.unplaced = split.unplaced := hplan.unplaced.trans hsame
  have hbuffers : colored.ofKind .buffer = k.ofKind .buffer := (hplan.ofKind .buffer).symm
  have hbuffers' : split.ofKind .buffer = k.ofKind .buffer := by
    rw [← Kernel.ofKind_unplaced k, hun, Kernel.ofKind_unplaced]
  have hallocation : ∀ e, ∀ n ∈ (colored.expr e).allocation, 0 ≤ n := fun e => by
    have hexpr : (colored.expr e).unplaced = (split.expr e).unplaced := by
      rw [← Kernel.expr_unplaced, ← Kernel.expr_unplaced, hsame]
    have := hsplit.allocation e
    rwa [show (split.expr e).allocation = (colored.expr e).allocation from
      (congrArg Expr.allocation hexpr).symm] at this
  have hspread := Buffers.of_place_ok (fun e _ => hallocation e) (hplan.fitsScratch hfits) hplace
  rw [hbuffers] at hspread
  have hmem : ∀ {e}, e ∈ k.ofKind .buffer → (colored.expr e).bufferId ∈ Buffers.slotColors colored :=
    fun he => Buffers.mem_slotColors.2 ⟨_, hbuffers ▸ he, rfl⟩
  obtain ⟨m, hm⟩ := hspread.sized x hx (hmem hx)
  obtain ⟨n, hn⟩ := hspread.sized y hy (hmem hy)
  have hexact : ∀ {e} {s : Amount}, e ∈ k.ofKind .buffer → (colored.expr e).byteSize = .ok s →
      s.toInt = (colored.expr e).reserved ∧ 0 ≤ s.toInt := by
    intro e s he hs
    have hpos : ∀ n ∈ (colored.expr e).allocation, 0 ≤ n.toInt := fun n hn =>
      Amount.le_iff.1 (hallocation e n hn)
    have hslot := (hplan.fitsScratch hfits).slot e (hbuffers ▸ he)
    have halign : 1 ≤ colored.slotAlignment := le_max_right _ _
    have hreserved := Expr.toInt_byteSize hs hpos (by omega)
    exact ⟨hreserved, hreserved ▸ Expr.reserved_nonneg hpos⟩
  obtain ⟨hmr, hm0⟩ := hexact hx hm
  obtain ⟨hnr, hn0⟩ := hexact hy hn
  have hapart : (k.expr x).bufferId ≠ (k.expr y).bufferId →
      Disjoint ((k.expr x).bytes m) ((k.expr y).bytes n) := by
    intro hcolor
    rw [hplan.bufferId, hplan.bufferId] at hcolor
    refine disjoint_bytes_of_apart ?_
    rw [hmr, hnr]
    exact hspread.apart x hx y hy (hmem hx) (hmem hy) hcolor
  refine ⟨m, n, (hplan.byteSize x).trans hm, (hplan.byteSize y).trans hn, fun hclash => hapart ?_, ?_⟩
  · rw [hplan.bufferId, hplan.bufferId]
    refine hcolors x (hbuffers' ▸ hx) y (hbuffers' ▸ hy) hne ?_
    rwa [← Kernel.clash_unplaced, ← hun, Kernel.clash_unplaced]
  · by_cases hcolor : (k.expr x).bufferId = (k.expr y).bufferId
    · rw [hplan.bufferId, hplan.bufferId] at hcolor
      have hshared := hspread.shared x hx y hy (hmem hx) hcolor
      rw [disjoint_bytes_of_shared hm0 hn0 hshared, hplan.bufferId, hplan.bufferId]
      simp [hcolor]
    · exact ⟨fun _ => .inl hcolor, fun _ => hapart hcolor⟩

/-! ## Two buffers and one loop -/

namespace Kernel

/-- Two buffers are in use together: something is stored for `b` between a store for `a` and a load
    of what `a` holds. -/
def InUseTogether (k : Kernel) (a b : ExprId) : Prop :=
  ∃ i j l : Nat, ∃ x y z : Expr, i < j ∧ j < l ∧
    k.sequence[i]? = some x ∧ k.sequence[j]? = some y ∧ k.sequence[l]? = some z ∧
    x.kind = .store ∧ (∃ t ∈ x.outputs, t ∈ (k.expr a).inputs) ∧
    y.kind = .store ∧ (∃ t ∈ y.outputs, t ∈ (k.expr b).inputs) ∧
    (z.kind = .load ∨ z.kind = .broadcastLoad) ∧ ∃ t ∈ z.inputs, t ∈ (k.expr a).outputs

end Kernel

/-- Two parameters are stored in buffers #4 and #7, and one loop adds what the buffers hold. The
    second one holds `n` elements, read one by one or as a single value. -/
def twoBuffers (n : Amount) (single : Bool) : Builder :=
  (Builder.start {} .float32 1 8).after
    [.parameter [16], .parameter [n],
      .load (vector 16 0), .store (vector 16 2), .buffer (vector 16 3) [],
      .load (vector n 1), .store (vector n 5), .buffer (vector n 6) [],
      .load (vector 16 4), if single then .broadcastLoad (vector n 7) else .load (vector n 7),
      .elementwise "Add" [vector 16 8, vector n 9], .store (vector 16 10),
      .loop (some 7) 0 16 8, .result (vector 16 11)]

/-- Allocations that are not negative can be told from the expressions that were made. -/
theorem Kernel.allocation_nonneg (h : k.exprs.all fun x => x.allocation.all (0 ≤ ·)) (e : ExprId) :
    ∀ n ∈ (k.expr e).allocation, 0 ≤ n := by
  rw [Array.all_eq_true'] at h
  unfold expr
  rw [Array.getD_eq_getD_getElem?]
  cases he : k.exprs[e]? with
  | none => exact fun n hn => absurd hn List.not_mem_nil
  | some x =>
    have hx := h x (Array.mem_of_getElem? he)
    exact fun n hn => of_decide_eq_true (List.all_eq_true.1 hx n hn)

/-- The placement of two buffers can be computed in words when their sizes are small. -/
theorem Kernel.fitsScratch_of_two {a b : ExprId} (hbuffers : k.ofKind .buffer = [a, b])
    (ha : (k.expr a).reserved + k.slotAlignment ≤ 0x1000) (hb : (k.expr b).reserved + k.slotAlignment ≤ 0x1000)
    (htotal : k.scratchNeeded ≤ 0x1000) : k.FitsScratch := by
  refine ⟨fun c hc => ?_, by omega⟩
  simp only [hbuffers, List.mem_cons, List.not_mem_nil, or_false] at hc
  rcases hc with rfl | rfl
  · omega
  · omega

/-- What becomes of two buffers that one loop steps differently. -/
theorem run_twoBuffers_single :
    let o := Pipeline.run (twoBuffers 1 true).kernel Pipeline.standard
    o.failure = none ∧ o.kernel.ofKind .buffer = [4, 7] ∧ o.kernel.ofKind .loopEnd = [14] ∧
      (o.kernel.expr 4).reserved = 64 ∧ (o.kernel.expr 7).reserved = 4 ∧ o.kernel.slotAlignment = 64 ∧
      o.kernel.scratchNeeded = 128 ∧ (o.kernel.expr 4).byteSize = .ok 64 ∧ (o.kernel.expr 7).byteSize = .ok 4 := by
  cbv
  decide

/-- What becomes of two buffers that every loop steps alike. -/
theorem run_twoBuffers_alike :
    let o := Pipeline.run (twoBuffers 16 false).kernel Pipeline.standard
    o.failure = none ∧ o.kernel.ofKind .buffer = [4, 7] ∧
      (o.kernel.expr 4).reserved = 64 ∧ (o.kernel.expr 7).reserved = 64 ∧ o.kernel.slotAlignment = 64 ∧
      o.kernel.scratchNeeded = 64 ∧ (o.kernel.expr 4).byteSize = .ok 64 ∧
      (o.kernel.expr 7).byteSize = .ok 64 ∧ (o.kernel.expr 4).bufferOffset = 0 ∧
      (o.kernel.expr 7).bufferOffset = 0 := by
  cbv
  decide

/-- Buffers in use together share memory when no loop steps them differently: the second one is
    filled over what the first one holds. -/
theorem Pipeline.standard_overlaps_buffers_in_use :
    ∃ b : Builder, Built b ∧ (∀ e, ∀ n ∈ (b.kernel.expr e).allocation, 0 ≤ n) ∧
      b.kernel.InUseTogether 4 7 ∧
      let o := run b.kernel standard
      o.failure = none ∧ o.kernel.FitsScratch ∧
        ∃ m n, (o.kernel.expr 4).byteSize = .ok m ∧ (o.kernel.expr 7).byteSize = .ok n ∧
          ¬ Disjoint ((o.kernel.expr 4).bytes m) ((o.kernel.expr 7).bytes n) := by
  obtain ⟨hok, hbuffers, hreserved, hreserved', halign, hneeded, hsize, hsize', hoffset, hoffset'⟩ :=
    run_twoBuffers_alike
  refine ⟨twoBuffers 16 false, (Built.start _ _ _ _).after (by decide +kernel),
    Kernel.allocation_nonneg (by decide +kernel), ?_, hok, ?_, 64, 64, hsize, hsize', ?_⟩
  · exact ⟨3, 6, 8, (twoBuffers 16 false).kernel.expr 3, (twoBuffers 16 false).kernel.expr 6,
      (twoBuffers 16 false).kernel.expr 8, by decide +kernel⟩
  · exact Kernel.fitsScratch_of_two hbuffers (by rw [hreserved, halign]; decide)
      (by rw [hreserved', halign]; decide) (by rw [hneeded]; decide)
  · rw [disjoint_bytes_of_shared (by decide) (by decide) (hoffset.trans hoffset'.symm)]
    decide

end KernelLoops
