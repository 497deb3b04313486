import Mathlib.Data.List.Perm.Lattice
import Mathlib.Data.Set.Function
import KernelLoops.Proofs.BroadcastNests

set_option autoImplicit false

/-! # Strides

Each index times the stride of its dimension, summed up, is the place of an element in memory. The
places are those of the layout: the indices, taken in the order in which the layout names the
dimensions, are the digits of the place, and the sizes are their bases. So every place belongs to
one element, and the places follow the indices in lexicographic order. -/

namespace KernelLoops

open List

variable {sizes : List Amount} {index index' : List Nat}

/-- Where the elements of a shape lie follows the lexicographic order of their indices. -/
theorem offset_lt_offset (h : Within sizes index) (h' : Within sizes index') (hlt : index < index') :
    offset sizes index < offset sizes index' := by
  induction h generalizing index' with
  | nil =>
    cases h'
    exact absurd hlt (List.lt_irrefl _)
  | @cons size i sizes is hi hrest ih =>
    obtain ⟨_, _, hi', hrest', rfl⟩ := forall₂_cons_left_iff.1 h'
    rename_i i' is'
    rw [offset, offset]
    rcases List.cons_lt_cons_iff.1 hlt with hless | ⟨rfl, hless⟩
    · calc i * volume sizes + offset sizes is < i * volume sizes + volume sizes := Nat.add_lt_add_left (offset_lt hrest) _
        _ = (i + 1) * volume sizes := (Nat.succ_mul _ _).symm
        _ ≤ i' * volume sizes := Nat.mul_le_mul_right _ hless
        _ ≤ i' * volume sizes + offset sizes is' := Nat.le_add_right _ _
    · exact Nat.add_lt_add_left (ih hrest' hless) _

theorem offset_lt_offset_iff (h : Within sizes index) (h' : Within sizes index') :
    offset sizes index < offset sizes index' ↔ index < index' := by
  refine ⟨fun hlt => ?_, offset_lt_offset h h'⟩
  rcases lt_trichotomy index index' with hless | rfl | hless
  · exact hless
  · exact absurd hlt (Nat.lt_irrefl _)
  · exact absurd (offset_lt_offset h' h hless) (Nat.lt_asymm hlt)

namespace TensorType

/-- The layout is an order of the dimensions, each dimension has an element, and the elements can be
    counted in a word. -/
structure Arranged (t : TensorType) : Prop where
  layout : t.layout.Perm ((range t.rank).map Int.ofNat)
  sizes : ∀ n ∈ t.shape, 1 ≤ n
  fits : volume t.shape < 2 ^ 63

/-- The indices in the order in which the layout names their dimensions. -/
def arrange (t : TensorType) (index : List Nat) : List Nat :=
  t.layout.map fun d => index.getD d.toNat 0

/-- The sum of the indices, each times the stride of its dimension. -/
def address (strides : List Amount) (index : List Nat) : Int :=
  (zipWith (fun (i : Nat) (s : Amount) => i * s.toInt) index strides).sum

/-- The size of a dimension. -/
def sizeAt (t : TensorType) (d : Int) : Amount := t.shape.getD d.toNat 1

namespace Arranged

variable {t : TensorType} (h : t.Arranged)

include h

theorem nodup : t.layout.Nodup :=
  h.layout.nodup_iff.2 (nodup_range.map fun _ _ => Int.ofNat.inj)

theorem mem_layout {d : Int} : d ∈ t.layout ↔ ∃ n < t.rank, d = n := by
  rw [h.layout.mem_iff, mem_map]
  constructor
  · rintro ⟨n, hn, rfl⟩
    exact ⟨n, mem_range.1 hn, rfl⟩
  · rintro ⟨n, hn, rfl⟩
    exact ⟨n, mem_range.2 hn, rfl⟩

theorem fetch_eq {d : Int} (hd : d ∈ t.layout) : fetch t.shape d = .ok (t.sizeAt d) ∧
    0 < t.sizeAt d := by
  obtain ⟨n, hn, rfl⟩ := h.mem_layout.1 hd
  have hsize : t.shape[n]? = some (t.sizeAt n) := by
    rw [sizeAt, Int.toNat_natCast, getD_eq_getElem?_getD, getElem?_eq_getElem hn]
    rfl
  exact ⟨fetch_eq_ok_iff.2 hsize, Int64.lt_of_lt_of_le (by decide) (h.sizes _ (mem_of_getElem? hsize))⟩

/-- The layout changes the order of the sizes, not their product. -/
theorem volume_layout : volume (t.layout.map t.sizeAt) = volume t.shape := by
  have hshape : ((range t.rank).map Int.ofNat).map t.sizeAt = t.shape := by
    refine ext_getElem (by simp [rank]) fun i hi hi' => ?_
    simp [sizeAt, getElem?_eq_getElem hi']
  have hperm := (h.layout.map t.sizeAt).map Amount.trips
  rw [hshape] at hperm
  exact hperm.prod_eq

/-- The stride of a dimension counts the elements of the dimensions inside it. -/
theorem stride_eq {outer inner : List Int} {d : Int} (hsplit : t.layout = outer ++ d :: inner) :
    ∃ s, stride d t.layout t.shape = .ok s ∧ s.toInt = volume (inner.map t.sizeAt) := by
  have hnodup := h.nodup
  rw [hsplit, nodup_append, nodup_cons] at hnodup
  have hmem : ∀ c ∈ inner, c ∈ t.layout := fun c hc => by simp [hsplit, hc]
  have hsizes : Forall₂ (fun d n => fetch t.shape d = .ok n ∧ 0 ≤ n) inner (inner.map t.sizeAt) := by
    rw [forall₂_map_right_iff, forall₂_same]
    intro c hc
    exact ⟨(h.fetch_eq (hmem c hc)).1, Int64.le_of_lt (h.fetch_eq (hmem c hc)).2⟩
  have hle : volume (inner.map t.sizeAt) ≤ volume t.shape := by
    rw [← h.volume_layout, hsplit, map_append, map_cons, volume, volume, map_append, prod_append, map_cons, prod_cons,
      ← Nat.mul_assoc]
    refine Nat.le_mul_of_pos_left _ (Nat.mul_pos (volume_pos fun n hn => ?_) (Amount.trips_pos (h.fetch_eq ?_).2))
    · obtain ⟨c, hc, rfl⟩ := mem_map.1 hn
      exact (h.fetch_eq (by simp [hsplit, hc])).2
    · simp [hsplit]
  refine ⟨_, hsplit ▸ TensorType.stride_eq outer hnodup.2.1.1 hsizes, ?_⟩
  exact Int64.toInt_ofNat_of_lt (Nat.lt_of_le_of_lt hle h.fits)

/-- The sum over the dimensions, taken from any place of the layout inward, is the place among the
    elements there. -/
theorem sum_strides {s : Int → Amount} (hs : ∀ d ∈ t.layout, stride d t.layout t.shape = .ok (s d))
    (x : Int → Nat)
    {outer inner : List Int} (hsplit : t.layout = outer ++ inner) :
    (inner.map fun d => (x d : Int) * (s d).toInt).sum = offset (inner.map t.sizeAt) (inner.map x) := by
  induction inner generalizing outer with
  | nil => rfl
  | cons d inner ih =>
    obtain ⟨s', hs', hvalue⟩ := h.stride_eq hsplit
    obtain rfl : s' = s d := Except.ok.inj (hs'.symm.trans (hs d (by simp [hsplit])))
    rw [map_cons, sum_cons, map_cons, map_cons, offset, hvalue, ih (hsplit.trans (append_cons outer d inner))]
    push_cast
    rfl

/-- An index of the shape is one of the sizes in the order of the layout. -/
theorem within_iff {index : List Nat} :
    Within t.shape index ↔ index.length = t.rank ∧ Within (t.layout.map t.sizeAt) (t.arrange index) := by
  have hlayout : Within (t.layout.map t.sizeAt) (t.arrange index) ↔
      ∀ n < t.rank, index.getD n 0 < (t.sizeAt n).trips := by
    rw [Within, arrange, forall₂_map_left_iff, forall₂_map_right_iff, forall₂_same]
    constructor
    · exact fun hall n hn => hall n (h.mem_layout.2 ⟨n, hn, rfl⟩)
    · intro hall d hd
      obtain ⟨n, hn, rfl⟩ := h.mem_layout.1 hd
      exact hall n hn
  have hsize : ∀ n (hn : n < t.shape.length), t.sizeAt n = t.shape.get ⟨n, hn⟩ := fun n hn => getD_eq_getElem _ _ hn
  rw [hlayout, Within, forall₂_iff_get]
  refine ⟨fun hall => ⟨hall.1.symm, fun n hn => ?_⟩, fun hall => ⟨hall.1.symm, fun n hn hn' => ?_⟩⟩
  · have hn' : n < index.length := hall.1 ▸ hn
    rw [hsize n hn, getD_eq_getElem _ _ hn']
    exact hall.2 n hn hn'
  · have hless := hall.2 n hn
    rwa [hsize n hn, getD_eq_getElem _ _ hn'] at hless

/-- Indices are told apart by their order in the layout. -/
theorem arrange_inj {x y : List Nat} (hx : x.length = t.rank) (hy : y.length = t.rank)
    (heq : t.arrange x = t.arrange y) :
    x = y := by
  refine ext_getElem (hx.trans hy.symm) fun n hn hn' => ?_
  have hsame := map_inj_left.1 heq n (h.mem_layout.2 ⟨n, hx ▸ hn, rfl⟩)
  simpa [getElem?_eq_getElem hn, getElem?_eq_getElem hn'] using hsame

/-- Every list of one index for each dimension is the order of some indices in the layout. -/
theorem exists_arrange {digits : List Nat} (hlength : digits.length = t.layout.length) :
    ∃ x, x.length = t.rank ∧ t.arrange x = digits := by
  refine ⟨(range t.rank).map fun n : Nat => digits.getD (t.layout.idxOf (n : Int)) 0, by simp, ?_⟩
  refine ext_getElem (by simp [arrange, hlength]) fun i hi hi' => ?_
  have hi'' : i < t.layout.length := hlength ▸ hi'
  obtain ⟨n, hn, hd⟩ := h.mem_layout.1 (getElem_mem hi'')
  have hindex : t.layout.idxOf (n : Int) = i := hd ▸ h.nodup.idxOf_getElem i hi''
  simp [arrange, hd, hn, hindex, getElem?_eq_getElem hi']

/-- The address of an index is the place of its digits. -/
theorem address_eq {s : Int → Amount} (hs : ∀ d ∈ t.layout, stride d t.layout t.shape = .ok (s d))
    {index : List Nat}
    (hlength : index.length = t.rank) :
    address ((range t.rank).map fun n : Nat => s n) index = offset (t.layout.map t.sizeAt) (t.arrange index) := by
  have hzip : zipWith (fun (i : Nat) (s : Amount) => (i : Int) * s.toInt) index
    ((range t.rank).map fun n : Nat => s n) =
      ((range t.rank).map Int.ofNat).map fun d => ((index.getD d.toNat 0 : Nat) : Int) * (s d).toInt := by
    refine ext_getElem (by simp [hlength]) fun n hn _ => ?_
    have hn' : n < index.length := by simp at hn; omega
    simp [getElem?_eq_getElem hn']
  rw [address, hzip, ← (h.layout.map _).sum_eq]
  exact h.sum_strides hs _ (nil_append _).symm

end Arranged

/-- Where the layout is an order of the dimensions, the sums of the indices, each times the stride
    of its dimension, are a bijection from the indices of the shape onto the numbers below its
    number of elements, and grow with the indices in lexicographic order, taken in the order of the
    layout. -/
theorem address_bijOn (t : TensorType) (h : t.Arranged) :
    ∃ strides, (range t.rank).mapM (fun d : Nat => stride d t.layout t.shape) = .ok strides ∧
      Set.BijOn (address strides) {x | Within t.shape x} (Set.Ico 0 t.numElements.toInt) ∧
      ∀ x y, Within t.shape x → Within t.shape y →
        (address strides x < address strides y ↔ t.arrange x < t.arrange y) := by
  have hstride : ∀ d, ∃ s, d ∈ t.layout → stride d t.layout t.shape = .ok s := fun d => by
    by_cases hd : d ∈ t.layout
    · obtain ⟨outer, inner, hsplit⟩ := append_of_mem hd
      obtain ⟨s, hs, -⟩ := h.stride_eq hsplit
      exact ⟨s, fun _ => hs⟩
    · exact ⟨0, fun hmem => absurd hmem hd⟩
  choose s hs using hstride
  have haddress {x : List Nat} (hx : Within t.shape x) := h.address_eq hs (h.within_iff.1 hx).1
  have hcount : t.numElements.toInt = volume (t.layout.map t.sizeAt) := by
    rw [numElements, product_eq_volume fun n hn => Int64.le_trans (by decide) (h.sizes n hn), h.volume_layout]
    exact Int64.toInt_ofNat_of_lt h.fits
  refine ⟨(range t.rank).map fun n : Nat => s n, mapM_eq_ok ?_,
    ⟨fun x hx => ?_, fun x hx y hy heq => ?_, fun a ha => ?_⟩,
    fun x y hx hy => ?_⟩
  · rw [forall₂_map_right_iff, forall₂_same]
    exact fun n hn => hs n (h.mem_layout.2 ⟨n, mem_range.1 hn, rfl⟩)
  · rw [haddress hx, hcount]
    exact ⟨Int.natCast_nonneg _, Int.ofNat_lt.2 (offset_lt (h.within_iff.1 hx).2)⟩
  · obtain ⟨hlength, hwithin⟩ := h.within_iff.1 hx
    obtain ⟨hlength', hwithin'⟩ := h.within_iff.1 hy
    rw [haddress hx, haddress hy, Int.natCast_inj] at heq
    refine h.arrange_inj hlength hlength' ?_
    rw [← indexAt_offset hwithin, heq, indexAt_offset hwithin']
  · obtain ⟨n, rfl⟩ := Int.eq_ofNat_of_zero_le ha.1
    obtain ⟨hwithin, hoffset⟩ := offset_indexAt (Int.ofNat_lt.1 (hcount ▸ ha.2))
    obtain ⟨x, hlength, hx⟩ := h.exists_arrange (by simpa using hwithin.length_eq.symm)
    have hmem : Within t.shape x := h.within_iff.2 ⟨hlength, hx ▸ hwithin⟩
    exact ⟨x, hmem, by rw [haddress hmem, hx, hoffset]⟩
  · rw [haddress hx, haddress hy, Int.ofNat_lt]
    exact offset_lt_offset_iff (h.within_iff.1 hx).2 (h.within_iff.1 hy).2

/-- Two blocks of three rows of four elements, the rows outermost and the blocks contiguous. -/
def turned : TensorType := { elementType := .float32, shape := [2, 3, 4], layout := [1, 2, 0] }

theorem address_bijOn_turned :
    ∃ strides, (range 3).mapM (fun d : Nat => stride d [1, 2, 0] [2, 3, 4]) = .ok strides ∧
      Set.BijOn (address strides) {x | Within [2, 3, 4] x} (Set.Ico 0 turned.numElements.toInt) ∧
      ∀ x y, Within [2, 3, 4] x → Within [2, 3, 4] y →
        (address strides x < address strides y ↔ turned.arrange x < turned.arrange y) :=
  address_bijOn turned ⟨by decide, by simp [turned], by decide +kernel⟩

end TensorType

end KernelLoops
