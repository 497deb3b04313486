import Mathlib.Algebra.Order.BigOperators.Group.List
import Mathlib.Algebra.Order.BigOperators.GroupWithZero.List
import Mathlib.Algebra.Order.Ring.Int
import KernelLoops.Proofs.Amounts
import KernelLoops.Proofs.Coloring

set_option autoImplicit false

/-! # Places of different colors are disjoint

The buffers of one color start at one place, and the slot of each color ends before the next one
starts. Sizes and places are amounts, which wrap around; the sums are exact as long as the scratch
memory, counted in integers, fits into a word. -/

namespace KernelLoops

open List

variable {k0 : Kernel} {x : Expr} {changed : Bool} {b : ExprId} {al c : Int} {sizes : List Amount}
  {group : List ExprId}
  {colors : List Int}

/-! ## Sizes in integers -/

/-- The bytes an expression reserves, counted without wrapping around. -/
def Expr.reserved (x : Expr) : Int :=
  (x.allocation.map Int64.toInt).prod *
    ((x.outputs.head?.bind fun t => t.elementType.size?).getD 0).toInt

/-- The room a slot takes: `n` bytes, rounded up to a multiple of `alignment`. -/
def slotSize (alignment n : Int) : Int := (n + alignment - 1) / alignment * alignment

namespace Amount

/-- A product wraps around as a whole. -/
theorem product_eq_ofInt (sizes : List Amount) :
    product sizes = Int64.ofInt (sizes.map Int64.toInt).prod := by
  have hfold : ∀ (sizes : List Amount) (start : Amount),
      sizes.foldl (· * ·) start = Int64.ofInt (start.toInt * (sizes.map Int64.toInt).prod) := by
    intro sizes
    induction sizes with
    | nil => intro start; simp
    | cons n rest ih =>
      intro start
      rw [foldl_cons, ih, map_cons, prod_cons, Int64.ofInt_mul, Int64.ofInt_mul,
        Int64.ofInt_mul, Int64.ofInt_toInt, Int64.ofInt_toInt, Int64.ofInt_toInt, Int64.mul_assoc]
  rw [product, hfold]
  simp

end Amount

theorem le_slotSize {alignment : Int} (n : Int) (ha : 0 < alignment) : n ≤ slotSize alignment n := by
  have := Int.lt_ediv_add_one_mul_self (n + alignment - 1) ha
  rw [Int.add_mul, Int.one_mul] at this
  unfold slotSize
  omega

theorem slotSize_le {alignment : Int} (n : Int) (ha : 0 < alignment) :
    slotSize alignment n ≤ n + alignment - 1 :=
  Int.ediv_mul_le (n + alignment - 1) (Int.ne_of_gt ha)

/-- Rounding up is exact where the sum before it is. -/
theorem Amount.toInt_alignUp {n alignment : Amount} (hn : 0 ≤ n.toInt) (ha : 0 < alignment.toInt)
    (hfits : n.toInt + alignment.toInt - 1 < 0x8000000000000000) :
    (alignUp n alignment).toInt = slotSize alignment.toInt n.toInt := by
  have hpred : (alignment - 1).toInt = alignment.toInt - 1 :=
    toInt_sub_of_fits (by simp; omega) (by have := toInt_upper alignment; simp; omega)
  have hassoc : n + alignment - 1 = n + (alignment - 1) := by
    rw [Int64.sub_eq_add_neg, Int64.sub_eq_add_neg, Int64.add_assoc]
  have hsum : (n + alignment - 1).toInt = n.toInt + alignment.toInt - 1 := by
    rw [hassoc, toInt_add_of_fits (by omega) (by omega), hpred]
    omega
  have hquot : ((n + alignment - 1) / alignment).toInt = (n.toInt + alignment.toInt - 1) / alignment.toInt := by
    rw [toInt_div_of_nonneg (by omega), hsum]
  have hlower := le_slotSize n.toInt ha
  have hupper := slotSize_le n.toInt ha
  unfold slotSize at hlower hupper
  unfold alignUp slotSize
  rw [toInt_mul_of_fits, hquot]
  · rw [hquot]
    omega
  · rw [hquot]
    omega

/-- Every element size is a number of bytes. -/
theorem ElementType.size?_nonneg (t : ElementType) : 0 ≤ (t.size?.getD 0).toInt := by
  cases t <;> decide

namespace Expr

theorem reserved_nonneg (h : ∀ n ∈ x.allocation, 0 ≤ n.toInt) : 0 ≤ x.reserved := by
  have hprod : 0 ≤ (x.allocation.map Int64.toInt).prod := by
    refine prod_nonneg fun n hn => ?_
    obtain ⟨m, hm, rfl⟩ := mem_map.1 hn
    exact h m hm
  refine Int.mul_nonneg hprod ?_
  cases x.outputs.head? with
  | none => decide
  | some t => exact t.elementType.size?_nonneg

/-- The size of a buffer is exact where it fits into a word. -/
theorem toInt_byteSize {n : Amount} (h : x.byteSize = .ok n)
    (hnonneg : ∀ n ∈ x.allocation, 0 ≤ n.toInt)
    (hfits : x.reserved < 0x8000000000000000) : n.toInt = x.reserved := by
  unfold byteSize at h
  by_cases hkind : x.kind ≠ .buffer
  · rw [if_pos hkind] at h
    cases h
  · rw [if_neg hkind] at h
    obtain ⟨t, ht, h⟩ := of_except_bind_ok h
    obtain ⟨size, hsize, h⟩ := of_except_bind_ok h
    cases h
    have hhead : x.outputs.head? = some t := by
      rw [head?_eq_getElem?]
      exact fetch_eq_ok_iff.1 ht
    have hsize? : t.elementType.size? = some size := by
      unfold ElementType.size at hsize
      split at hsize
      · next hs => cases hsize; exact hs
      · cases hsize
    have hreserved : x.reserved = (x.allocation.map Int64.toInt).prod * size.toInt := by
      simp [reserved, hhead, hsize?]
    rw [Amount.product_eq_ofInt, ← Int64.ofInt_toInt size, ← Int64.ofInt_mul, ← hreserved, Int64.toInt_ofInt]
    have := reserved_nonneg hnonneg
    exact Amount.bmod_word (by omega) hfits

end Expr

/-! ## Slots -/

namespace Kernel

/-- The alignment of the slots; an alignment that is not positive counts as one. -/
def slotAlignment (k : Kernel) : Int := max k.config.alignment.toInt 1

/-- The bytes the largest buffer of a color reserves. -/
def largest (k : Kernel) (color : Int) : Int :=
  (((k.ofKind .buffer).filter fun b => (k.expr b).bufferId = color).map fun b => (k.expr b).reserved).foldl
    max 0

/-- The bytes of scratch memory the buffers need: one slot for each color. -/
def scratchNeeded (k : Kernel) : Int :=
  (((k.ofKind .buffer).map fun b => (k.expr b).bufferId).eraseDups.map fun c =>
    slotSize k.slotAlignment (k.largest c)).sum

/-- The placement can be computed in words: every slot can be rounded up, and all slots together end
    at a place that is a word. -/
structure FitsScratch (k : Kernel) : Prop where
  slot : ∀ b ∈ k.ofKind .buffer, (k.expr b).reserved + k.slotAlignment - 1 < 0x8000000000000000
  total : k.scratchNeeded < 0x8000000000000000

end Kernel

namespace Buffers

open Kernel

/-- The largest of some sizes is one of them, or zero where there is none, and no size is larger. -/
theorem foldl_max_spec (sizes : List Int) (start : Int) :
    (sizes.foldl max start = start ∨ sizes.foldl max start ∈ sizes) ∧
      start ≤ sizes.foldl max start ∧ ∀ n ∈ sizes, n ≤ sizes.foldl max start := by
  induction sizes generalizing start with
  | nil => simp
  | cons m rest ih =>
    obtain ⟨hmem, hstart, hle⟩ := ih (max start m)
    rw [foldl_cons]
    refine ⟨?_, by omega, fun n hn => ?_⟩
    · rcases hmem with heq | hmem
      · rw [heq]
        rcases max_choice start m with h | h
        · exact .inl h
        · rw [h]
          exact .inr mem_cons_self
      · exact .inr (mem_cons_of_mem m hmem)
    · rcases mem_cons.1 hn with rfl | hn
      · omega
      · exact hle n hn

theorem toInt_foldl_max (sizes : List Amount) (start : Amount) :
    (sizes.foldl max start).toInt = (sizes.map Int64.toInt).foldl max start.toInt := by
  induction sizes generalizing start with
  | nil => rfl
  | cons n rest ih => rw [foldl_cons, ih, Amount.toInt_max, map_cons, foldl_cons]

/-- The largest size of a group, starting from its first member or from zero. -/
theorem toInt_largest (h : ∀ n ∈ sizes, 0 ≤ n.toInt) :
    (sizes.tail.foldl max (sizes.headD 0)).toInt = (sizes.map Int64.toInt).foldl max 0 := by
  rw [toInt_foldl_max]
  cases sizes with
  | nil => rfl
  | cons n rest =>
    have hn := h n mem_cons_self
    rw [map_cons, foldl_cons, max_eq_right hn]
    rfl

/-! ## What placing leaves alone -/

/-- Two kernels that differ in places and scratch size only. -/
structure SamePlan (k k' : Kernel) : Prop where
  unplaced : k'.unplaced = k.unplaced
  bufferId : ∀ e, (k'.expr e).bufferId = (k.expr e).bufferId

namespace SamePlan

variable {k k' : Kernel}

theorem refl (k : Kernel) : SamePlan k k := ⟨rfl, fun _ => rfl⟩

section

variable (h : SamePlan k k')

include h

theorem expr (e : ExprId) : (k'.expr e).unplaced = (k.expr e).unplaced := by
  rw [← expr_unplaced, ← expr_unplaced, h.unplaced]

theorem size : k'.exprs.size = k.exprs.size := by
  have := congrArg (fun k => k.exprs.size) h.unplaced
  simpa [Kernel.unplaced] using this

theorem reserved (e : ExprId) : (k'.expr e).reserved = (k.expr e).reserved := by
  have h := congrArg Expr.reserved (h.expr e)
  exact h

theorem byteSize (e : ExprId) : (k'.expr e).byteSize = (k.expr e).byteSize := by
  have h := congrArg Expr.byteSize (h.expr e)
  exact h

theorem ofKind (kind : OpKind) : k'.ofKind kind = k.ofKind kind := by
  rw [← ofKind_unplaced k', h.unplaced, ofKind_unplaced]

/-- The scratch memory a kernel needs does not depend on places. -/
theorem fitsScratch (hfits : k'.FitsScratch) : k.FitsScratch := by
  have halign : k'.slotAlignment = k.slotAlignment := by
    have := congrArg (fun k => k.config) h.unplaced
    exact congrArg (fun c : Config => max c.alignment.toInt 1) this
  have hlargest : ∀ c, k'.largest c = k.largest c := fun c => by
    simp only [largest, h.ofKind, h.bufferId, h.reserved]
  refine ⟨fun b hb => ?_, ?_⟩
  · rw [← h.reserved, ← halign]
    exact hfits.slot b (h.ofKind .buffer ▸ hb)
  · have htotal := hfits.total
    simp only [scratchNeeded, h.ofKind, h.bufferId, halign, hlargest] at htotal
    exact htotal

end

/-- Changing a place does not show without places. -/
theorem modifyExpr {e : ExprId} {f : Expr → Expr} (hun : ∀ x, (f x).unplaced = x.unplaced)
    (hid : ∀ x, (f x).bufferId = x.bufferId) : Keeps (SamePlan k0) (Edit.modifyExpr e f) := by
  intro k hk
  refine ⟨?_, fun i => ?_⟩
  · exact (unplaced_modify hun).trans hk.unplaced
  · exact (field_modify Expr.bufferId (hid _) i).trans (hk.bufferId i)

theorem placeColor (alignment : Amount) (buffers : List ExprId) (offset : Amount) (color : Int) :
    Keeps (SamePlan k0) (placeColor alignment buffers offset color) := by
  refine .get_bind fun k _ => .bind (Edit.keeps_ask _) fun sizes => .bind (.forM (fun b => ?_) _) fun _ => .pure _
  exact modifyExpr (fun _ => rfl) fun _ => rfl

theorem of_placeColor_ok {alignment offset next : Amount} {buffers : List ExprId} {color : Int}
    (h : Buffers.placeColor alignment buffers offset color k = .ok next k') : SamePlan k k' := by
  have hkeeps : Keeps (SamePlan k) (Buffers.placeColor alignment buffers offset color) := placeColor _ _ _ _
  have := hkeeps k (.refl k)
  rwa [h] at this

theorem place : Keeps (SamePlan k0) place := by
  refine .get_bind fun k _ => .ite (.bind (.modify ?_) fun _ => .pure _) (.bind ?_ fun _ => ?_)
  · exact fun k hk => ⟨hk.unplaced, hk.bufferId⟩
  · exact .foldlM (placeColor _ _) _ _
  · exact .bind (.modify fun k hk => ⟨hk.unplaced, hk.bufferId⟩) fun _ => .pure _

end SamePlan

/-! ## One color -/

/-- Places the buffers of one color. -/
def atOffset (offset : Amount) (_ : ExprId) (x : Expr) : Expr := { x with bufferOffset := offset }

variable {k k' : Kernel} {alignment offset next : Amount} {buffers : List ExprId} {color : Int}

/-- Placing the buffers of one color asks for their sizes, and no more can go wrong. -/
theorem placeColor_run (hgroup : buffers.filter (fun b => (k.expr b).bufferId = color) = group)
    (hsizes : group.mapM (fun b => (k.expr b).byteSize) = .ok sizes) :
    placeColor alignment buffers offset color k =
      .ok (offset + (sizes.tail.foldl max (sizes.headD 0)).alignUp alignment)
        (k.modifyEach id (atOffset offset) group) := by
  unfold placeColor
  rw [get_bind_run, hgroup]
  refine (bind_run_ok (Edit.ask_run_ok hsizes)).trans ?_
  exact bind_run_ok (Edit.forM_modifyExpr_run id (atOffset offset) group k)

/-- Buffers that were placed have a size. -/
theorem of_placeColor_ok (h : placeColor alignment buffers offset color k = .ok next k') :
    ∀ b ∈ buffers, (k.expr b).bufferId = color → ∃ n, (k.expr b).byteSize = .ok n := by
  unfold placeColor at h
  rw [get_bind_run] at h
  obtain ⟨sizes, _, hsizes, _⟩ := of_bind_run_ok h
  obtain ⟨hsizes, -⟩ := Edit.of_ask_run_ok hsizes
  exact fun b hb hc => of_mapM_ok hsizes (mem_filter.2 ⟨hb, decide_eq_true hc⟩)

/-- The placed buffers are at the offset, and the others stay. -/
theorem offset_modifyEach (offset : Amount) (group : List ExprId) (hb : b < k.exprs.size) :
    ((k.modifyEach id (atOffset offset) group).expr b).bufferOffset =
      if b ∈ group then offset else (k.expr b).bufferOffset := by
  induction group generalizing k with
  | nil => simp [modifyEach]
  | cons a rest ih =>
    have hsize : ({ k with exprs := k.exprs.modify a (atOffset offset a) } : Kernel).exprs.size =
      k.exprs.size := by simp
    refine (ih (hsize ▸ hb)).trans ?_
    rw [expr_modify]
    by_cases hrest : b ∈ rest
    · simp [hrest]
    · by_cases ha : b = a
      · simp [ha, atOffset, ha ▸ hb]
      · simp [ha, hrest]

/-! ## One slot after the other -/

section Slots

variable (buffers) (color size : ExprId → Int)

/-- The kernel has the buffers, with these colors and sizes. -/
structure Sized (k : Kernel) : Prop where
  made : ∀ b ∈ buffers, b < k.exprs.size
  color : ∀ b ∈ buffers, (k.expr b).bufferId = color b
  bytes : ∀ b ∈ buffers, ∀ n, (k.expr b).byteSize = .ok n → n.toInt = size b
  nonneg : ∀ b ∈ buffers, 0 ≤ size b

/-- The room of the slot of a color. -/
def room (alignment c : Int) : Int :=
  slotSize alignment (((buffers.filter fun b => color b = c).map size).foldl max 0)

variable {buffers color size}

/-- Where the buffers of some colors, which all have a size, end up: in the slots from `lo` to `hi`,
    buffers of one color at one place and buffers of two colors at places that do not meet. The
    other buffers stay. -/
structure Spread (buffers : List ExprId) (color size : ExprId → Int) (alignment : Int)
    (colors : List Int)
    (lo hi : Int) (k k' : Kernel) : Prop where
  sized : ∀ b ∈ buffers, color b ∈ colors → ∃ n, (k.expr b).byteSize = .ok n
  stays : ∀ b ∈ buffers, color b ∉ colors → (k'.expr b).bufferOffset = (k.expr b).bufferOffset
  start : ∀ b ∈ buffers, color b ∈ colors → lo ≤ (k'.expr b).bufferOffset.toInt
  stop : ∀ b ∈ buffers, color b ∈ colors → (k'.expr b).bufferOffset.toInt + size b ≤ hi
  aligned : ∀ b ∈ buffers, color b ∈ colors → alignment ∣ (k'.expr b).bufferOffset.toInt - lo
  shared : ∀ a ∈ buffers, ∀ b ∈ buffers, color a ∈ colors → color a = color b →
    (k'.expr a).bufferOffset = (k'.expr b).bufferOffset
  apart : ∀ a ∈ buffers, ∀ b ∈ buffers, color a ∈ colors → color b ∈ colors → color a ≠ color b →
    (k'.expr a).bufferOffset.toInt + size a ≤ (k'.expr b).bufferOffset.toInt ∨
      (k'.expr b).bufferOffset.toInt + size b ≤ (k'.expr a).bufferOffset.toInt

theorem room_nonneg (buffers : List ExprId) (color size : ExprId → Int) (hal : 0 < al) (c : Int) :
    0 ≤ room buffers color size al c :=
  Int.le_trans (foldl_max_spec _ 0).2.1 (le_slotSize _ hal)

theorem sum_room_nonneg (buffers : List ExprId) (color size : ExprId → Int) (hal : 0 < al)
    (colors : List Int) :
    0 ≤ (colors.map (room buffers color size al)).sum := by
  refine sum_nonneg fun n hn => ?_
  obtain ⟨c, -, rfl⟩ := mem_map.1 hn
  exact room_nonneg buffers color size hal c

theorem dvd_room (buffers : List ExprId) (color size : ExprId → Int) (al c : Int) :
    al ∣ room buffers color size al c := Int.dvd_mul_left _ _

theorem size_le_room (color size : ExprId → Int) (hal : 0 < al) (hb : b ∈ buffers) :
    size b ≤ room buffers color size al (color b) := by
  refine Int.le_trans ((foldl_max_spec _ 0).2.2 (size b) ?_) (le_slotSize _ hal)
  exact mem_map_of_mem (mem_filter.2 ⟨hb, decide_eq_true rfl⟩)

section

variable (hk : Sized buffers color size k)

include hk

/-- The sizes of a group, as they were found. -/
theorem Sized.exists_sizes (hgroup : ∀ b ∈ group, b ∈ buffers)
    (hbytes : ∀ b ∈ group, ∃ n, (k.expr b).byteSize = .ok n) :
    ∃ sizes, group.mapM (fun b => (k.expr b).byteSize) = .ok sizes ∧ sizes.map Int64.toInt = group.map size := by
  induction group with
  | nil => exact ⟨[], rfl, rfl⟩
  | cons b rest ih =>
    obtain ⟨n, hn⟩ := hbytes b mem_cons_self
    obtain ⟨ns, hns, hmap⟩ := ih (fun a ha => hgroup a (mem_cons_of_mem b ha)) fun a ha =>
      hbytes a (mem_cons_of_mem b ha)
    refine ⟨n :: ns, ?_, by rw [map_cons, map_cons, hmap, hk.bytes b (hgroup b mem_cons_self) n hn]⟩
    rw [mapM_cons, except_bind_ok hn, except_bind_ok hns]
    rfl

/-- Placing the buffers of one color. -/
theorem Sized.placeColor (hal : 0 < alignment.toInt)
    (hslot : ∀ b ∈ buffers, size b + alignment.toInt - 1 < 0x8000000000000000) (hstart : 0 ≤ offset.toInt)
    (hroom : offset.toInt + room buffers color size alignment.toInt c < 0x8000000000000000)
    (hbytes : ∀ b ∈ buffers, color b = c → ∃ n, (k.expr b).byteSize = .ok n) :
    ∃ next, placeColor alignment buffers offset c k =
        .ok next (k.modifyEach id (atOffset offset) (buffers.filter fun b => color b = c)) ∧
      next.toInt = offset.toInt + room buffers color size alignment.toInt c := by
  have hgroup : buffers.filter (fun b => (k.expr b).bufferId = c) = buffers.filter fun b => color b = c :=
    filter_congr fun b hb => by rw [hk.color b hb]
  have hmem : ∀ {b}, b ∈ buffers.filter (fun b => color b = c) → b ∈ buffers := mem_of_mem_filter
  obtain ⟨sizes, hsizes, hexact⟩ := hk.exists_sizes (fun b hb => hmem hb) fun b hb =>
    hbytes b (hmem hb) (of_decide_eq_true (mem_filter.1 hb).2)
  refine ⟨_, placeColor_run hgroup hsizes, ?_⟩
  have hpos : ∀ n ∈ sizes, 0 ≤ n.toInt := fun n hn => by
    have hn' : n.toInt ∈ (buffers.filter fun b => color b = c).map size := hexact ▸ mem_map_of_mem hn
    obtain ⟨b, hb, heq⟩ := mem_map.1 hn'
    exact heq ▸ hk.nonneg b (hmem hb)
  have hlargest := toInt_largest hpos
  rw [hexact] at hlargest
  obtain ⟨hone, hzero, -⟩ := foldl_max_spec ((buffers.filter fun b => color b = c).map size) 0
  have hfits : (sizes.tail.foldl max (sizes.headD 0)).toInt + alignment.toInt - 1 < 0x8000000000000000 := by
    rw [hlargest]
    rcases hone with hone | hone
    · rw [hone]
      have := Amount.toInt_upper alignment
      omega
    · obtain ⟨b, hb, heq⟩ := mem_map.1 hone
      rw [← heq]
      exact hslot b (hmem hb)
  have hup := Amount.toInt_alignUp (by omega) hal hfits
  rw [hlargest] at hup
  have hnonneg := room_nonneg buffers color size hal c
  unfold room at hnonneg hroom ⊢
  rw [Amount.toInt_add_of_fits, hup]
  · rw [hup]
    omega
  · rw [hup]
    exact hroom

theorem Sized.congr (h : SamePlan k k') : Sized buffers color size k' := by
  constructor
  · exact fun b hb => h.size ▸ hk.made b hb
  · exact fun b hb => (h.bufferId b).trans (hk.color b hb)
  · exact fun b hb n hn => hk.bytes b hb n (h.byteSize b ▸ hn)
  · exact hk.nonneg

/-- Buffers of colors that were placed have a size. -/
theorem of_foldlM_placeColor_ok
    (h : colors.foldlM (placeColor alignment buffers) offset k = .ok next k') :
    ∀ b ∈ buffers, color b ∈ colors → ∃ n, (k.expr b).byteSize = .ok n := by
  induction colors generalizing k offset with
  | nil => simp
  | cons c rest ih =>
    obtain ⟨offset1, k1, hplace, hrest⟩ := of_bind_run_ok h
    have hplan : SamePlan k k1 := .of_placeColor_ok hplace
    intro b hb hc
    rcases mem_cons.1 hc with hc | hc
    · exact of_placeColor_ok hplace b hb ((hk.color b hb).trans hc)
    · obtain ⟨n, hn⟩ := ih (hk.congr hplan) hrest b hb hc
      exact ⟨n, hplan.byteSize b ▸ hn⟩

end

/-- Placing one color after the other spreads the buffers. -/
theorem Sized.foldlM_placeColor (hcolors : colors.Nodup) (hk : Sized buffers color size k)
    (hal : 0 < alignment.toInt)
    (hslot : ∀ b ∈ buffers, size b + alignment.toInt - 1 < 0x8000000000000000) (hstart : 0 ≤ offset.toInt)
    (htotal : offset.toInt + (colors.map (room buffers color size alignment.toInt)).sum < 0x8000000000000000)
    (hbytes : ∀ b ∈ buffers, color b ∈ colors → ∃ n, (k.expr b).byteSize = .ok n) :
    ∃ next k', colors.foldlM (Buffers.placeColor alignment buffers) offset k = .ok next k' ∧
      next.toInt = offset.toInt + (colors.map (room buffers color size alignment.toInt)).sum ∧
      Spread buffers color size alignment.toInt colors offset.toInt next.toInt k k' := by
  induction colors generalizing k offset with
  | nil =>
    exact ⟨offset, k, rfl, by simp, by simp,
      fun _ _ _ => rfl, by simp, by simp, by simp, by simp, by simp⟩
  | cons c rest ih =>
    rw [nodup_cons] at hcolors
    rw [map_cons, sum_cons] at htotal ⊢
    have hroom := room_nonneg buffers color size hal c
    have hrooms := sum_room_nonneg buffers color size hal rest
    obtain ⟨offset1, hplace, hoffset1⟩ := hk.placeColor hal hslot hstart (by omega) fun b hb hc =>
      hbytes b hb (mem_cons.2 (.inl hc))
    have hplan := SamePlan.of_placeColor_ok hplace
    have hstart1 : 0 ≤ offset1.toInt := by omega
    obtain ⟨next, k', hrest, hnext, ih⟩ := ih hcolors.2 (hk.congr hplan) hstart1 (by omega) fun b hb hc => by
      rw [hplan.byteSize b]
      exact hbytes b hb (mem_cons_of_mem c hc)
    -- A buffer of the first color is placed at `offset` and not touched again.
    have hat : ∀ {b}, b ∈ buffers → ((k.modifyEach id (atOffset offset) (buffers.filter fun b => color b = c)).expr
        b).bufferOffset = if color b = c then offset else (k.expr b).bufferOffset := fun hb => by
      rw [offset_modifyEach offset _ (hk.made _ hb)]
      simp [hb]
    have hfirst : ∀ {b}, b ∈ buffers → color b = c → (k'.expr b).bufferOffset = offset := fun hb hc => by
      rw [ih.stays _ hb (hc ▸ hcolors.1), hat hb, if_pos hc]
    have hfits : ∀ {b}, b ∈ buffers → color b = c → offset.toInt + size b ≤ offset1.toInt := fun hb hc => by
      have := hc ▸ size_le_room color size hal hb
      omega
    have hlater : ∀ {a b}, a ∈ buffers → b ∈ buffers → color a = c → color b ∈ rest →
        (k'.expr a).bufferOffset.toInt + size a ≤ (k'.expr b).bufferOffset.toInt := by
      intro a b ha hb hac hbc
      rw [hfirst ha hac]
      exact (hfits ha hac).trans (ih.start b hb hbc)
    refine ⟨next, k', (bind_run_ok hplace).trans hrest, by omega, hbytes, ?_, ?_, ?_, ?_, ?_, ?_⟩
    · intro b hb hc
      rw [mem_cons, not_or] at hc
      rw [ih.stays b hb hc.2, hat hb, if_neg hc.1]
    · intro b hb hc
      rcases mem_cons.1 hc with hc | hc
      · rw [hfirst hb hc]
      · have := ih.start b hb hc
        omega
    · intro b hb hc
      rcases mem_cons.1 hc with hc | hc
      · have := hfits hb hc
        rw [hfirst hb hc]
        omega
      · exact ih.stop b hb hc
    · intro b hb hc
      rcases mem_cons.1 hc with hc | hc
      · rw [hfirst hb hc, Int.sub_self]
        exact Int.dvd_zero _
      · have hstep : (k'.expr b).bufferOffset.toInt - offset.toInt = (k'.expr b).bufferOffset.toInt - offset1.toInt +
            room buffers color size alignment.toInt c := by omega
        rw [hstep]
        exact Int.dvd_add (ih.aligned b hb hc) (dvd_room buffers color size _ c)
    · intro a ha b hb hac hab
      rcases mem_cons.1 hac with hac | hac
      · rw [hfirst ha hac, hfirst hb (hab ▸ hac)]
      · exact ih.shared a ha b hb hac hab
    · intro a ha b hb hac hbc hne
      rcases mem_cons.1 hac with hac | hac
      · rcases mem_cons.1 hbc with hbc | hbc
        · exact absurd (hac.trans hbc.symm) hne
        · exact .inl (hlater ha hb hac hbc)
      · rcases mem_cons.1 hbc with hbc | hbc
        · exact .inr (hlater hb ha hbc hac)
        · exact ih.apart a ha b hb hac hbc hne

end Slots

/-! ## The pass -/

/-- The colors of the buffers, in the order their slots come in. -/
def slotColors (k : Kernel) : List Int :=
  ((k.ofKind .buffer).map fun b => (k.expr b).bufferId).eraseDups.mergeSort

theorem mem_slotColors : c ∈ slotColors k ↔ ∃ b ∈ k.ofKind .buffer, (k.expr b).bufferId = c := by
  rw [slotColors, (mergeSort_perm _ _).mem_iff, mem_eraseDups, mem_map]

theorem slotColors_of_isEmpty (h : (k.ofKind .buffer).isEmpty = true) : slotColors k = [] := by
  simp [slotColors, List.isEmpty_iff.1 h]

theorem nodup_slotColors (k : Kernel) : (slotColors k).Nodup :=
  (mergeSort_perm _ _).nodup_iff.2 (nodup_eraseDups _)

theorem toInt_alignment (k : Kernel) : (max k.config.alignment 1).toInt = k.slotAlignment := by
  rw [Amount.toInt_max]
  rfl

theorem slotAlignment_pos (k : Kernel) : 0 < k.slotAlignment :=
  Int.lt_of_lt_of_le Int.zero_lt_one (le_max_right _ _)

/-- The pass places the colors one after the other, if there are any. -/
theorem place_run (h : (slotColors k).foldlM
    (placeColor (max k.config.alignment 1) (k.ofKind .buffer)) 0 k = .ok next k') :
    place k = .ok (!(k.ofKind .buffer).isEmpty) { k' with scratchSize := next } := by
  unfold place
  rw [get_bind_run]
  by_cases hempty : (k.ofKind .buffer).isEmpty
  · rw [slotColors_of_isEmpty hempty] at h
    cases h
    simp only [hempty]
    rfl
  · simp only [hempty]
    exact bind_run_ok h

theorem of_place_run_ok (h : place k = .ok changed k') :
    ∃ next k1, (slotColors k).foldlM (placeColor (max k.config.alignment 1) (k.ofKind .buffer)) 0 k = .ok next k1 := by
  unfold place at h
  rw [get_bind_run] at h
  by_cases hempty : (k.ofKind .buffer).isEmpty
  · rw [slotColors_of_isEmpty hempty]
    exact ⟨0, k, rfl⟩
  · simp only [hempty] at h
    obtain ⟨size, k1, hplace, -⟩ := of_bind_run_ok h
    exact ⟨size, k1, hplace⟩

/-- Placing buffers that have sizes spreads them over the scratch memory. -/
theorem Sized.place {size : ExprId → Int}
    (hk : Sized (k.ofKind .buffer) (fun b => (k.expr b).bufferId) size k)
    (hslot : ∀ b ∈ k.ofKind .buffer, size b + k.slotAlignment - 1 < 0x8000000000000000)
    (htotal : ((slotColors k).map (room (k.ofKind .buffer) (fun b => (k.expr b).bufferId) size k.slotAlignment)).sum <
      0x8000000000000000)
    (hbytes : ∀ b ∈ k.ofKind .buffer, ∃ n, (k.expr b).byteSize = .ok n) :
    ∃ k', place k = .ok (!(k.ofKind .buffer).isEmpty) k' ∧
      k'.scratchSize.toInt =
        ((slotColors k).map (room (k.ofKind .buffer) (fun b => (k.expr b).bufferId) size k.slotAlignment)).sum ∧
      Spread (k.ofKind .buffer) (fun b => (k.expr b).bufferId) size k.slotAlignment (slotColors k) 0
        k'.scratchSize.toInt k k' := by
  have halign := toInt_alignment k
  obtain ⟨next, k1, hrun, hnext, hspread⟩ := hk.foldlM_placeColor (nodup_slotColors k)
    (halign ▸ slotAlignment_pos k) (halign ▸ hslot) (show 0 ≤ (0 : Amount).toInt by decide)
    (by rwa [halign, Int64.toInt_zero, Int.zero_add]) fun b hb _ => hbytes b hb
  rw [halign, Int64.toInt_zero, Int.zero_add] at hnext
  rw [halign, Int64.toInt_zero] at hspread
  exact ⟨{ k1 with scratchSize := next }, place_run hrun, hnext, hspread.sized, hspread.stays, hspread.start,
    hspread.stop, hspread.aligned, hspread.shared, hspread.apart⟩

/-- A buffer is an expression that was made. -/
theorem lt_size_of_buffer (hb : b ∈ k.ofKind .buffer) : b < k.exprs.size := by
  apply lt_size_of_kind_ne
  rw [of_decide_eq_true (mem_filter.1 hb).2]
  exact OpKind.noConfusion

/-- The buffers of a kernel have the sizes they reserve, as far as these fit. -/
theorem sized_reserved (hnonneg : ∀ b ∈ k.ofKind .buffer, ∀ n ∈ (k.expr b).allocation, 0 ≤ n)
    (hfits : k.FitsScratch) :
    Sized (k.ofKind .buffer) (fun b => (k.expr b).bufferId) (fun b => (k.expr b).reserved) k where
  made b hb := lt_size_of_buffer hb
  color _ _ := rfl
  bytes b hb n hn := by
    have hslot := hfits.slot b hb
    have := slotAlignment_pos k
    exact Expr.toInt_byteSize hn (fun n hn => Amount.le_iff.1 (hnonneg b hb n hn)) (by omega)
  nonneg b hb := Expr.reserved_nonneg fun n hn => Amount.le_iff.1 (hnonneg b hb n hn)

/-- Where placing succeeds, the buffers are spread. -/
theorem of_place_ok (hnonneg : ∀ b ∈ k.ofKind .buffer, ∀ n ∈ (k.expr b).allocation, 0 ≤ n)
    (hfits : k.FitsScratch)
    (h : place k = .ok changed k') :
    Spread (k.ofKind .buffer) (fun b => (k.expr b).bufferId) (fun b => (k.expr b).reserved) k.slotAlignment
      (slotColors k) 0 k'.scratchSize.toInt k k' := by
  have hk := sized_reserved hnonneg hfits
  obtain ⟨next, k1, hrun⟩ := of_place_run_ok h
  have htotal := hfits.total
  rw [scratchNeeded, ← ((mergeSort_perm _ _).map _).sum_eq] at htotal
  obtain ⟨k2, hplace, -, hspread⟩ := hk.place hfits.slot htotal fun b hb =>
    of_foldlM_placeColor_ok hk hrun b hb (mem_slotColors.2 ⟨b, hb, rfl⟩)
  rw [h] at hplace
  cases hplace
  exact hspread

end Buffers

end KernelLoops
