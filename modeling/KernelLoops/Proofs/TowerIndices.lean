import KernelLoops.Proofs.NestJourneys

set_option autoImplicit false

/-! # Indices in a tower

A run of the body of a tower stands at an index in each dimension and handles a few elements of the
innermost one. The runs of a tower are known by these (`mem_towerJobs_iff`), every index belongs to
a run (`exists_spot`), and where a tensor stands in a run is the place of its element at the index
(`Follows.along_eq`). -/

namespace KernelLoops

open List

variable {inc : Amount} {sizes : List Amount} {index : List Nat} {rs : List Shift} {T : TensorId}

/-! ## Indices -/

/-- Each index is below the size of its dimension. -/
def Within (sizes : List Amount) (index : List Nat) : Prop :=
  Forall₂ (fun (size : Amount) (i : Nat) => i < size.trips) sizes index

/-- Where the element at an index lies among those of a shape, the last dimension being
    contiguous. -/
def offset : List Amount → List Nat → Nat
  | _ :: sizes, i :: is => i * volume sizes + offset sizes is
  | _, _ => 0

/-- The index at which an element of a shape lies. -/
def indexAt : List Amount → Nat → List Nat
  | [], _ => []
  | _ :: sizes, e => e / volume sizes :: indexAt sizes (e % volume sizes)

/-- The index in a shape that has a single element in some dimensions. -/
def clamp (sizes : List Amount) (index : List Nat) : List Nat :=
  zipWith (fun size i => if size = 1 then 0 else i) sizes index

theorem clamp_cons (size : Amount) (sizes : List Amount) (i : Nat) (is : List Nat) :
    clamp (size :: sizes) (i :: is) = (if size = 1 then 0 else i) :: clamp sizes is :=
  rfl

/-- An index below the size is the first one where there is one. -/
theorem clamp_index {size : Amount} {i : Nat} (h : i < size.trips) :
    (if size = 1 then 0 else i) = i := by
  split
  · next hone =>
      rw [hone] at h
      have : (1 : Amount).trips = 1 := rfl
      omega
  · rfl

/-- The index some elements further on in the last dimension. -/
def bump (k : Nat) : List Nat → List Nat
  | [] => []
  | [i] => [i + k]
  | i :: i' :: is => i :: bump k (i' :: is)

theorem offset_lt (h : Within sizes index) : offset sizes index < volume sizes := by
  induction h with
  | nil => exact Nat.one_pos
  | @cons size i sizes is hi _ ih =>
    rw [offset, volume_cons]
    calc i * volume sizes + offset sizes is < i * volume sizes + volume sizes := Nat.add_lt_add_left ih _
      _ = (i + 1) * volume sizes := (Nat.succ_mul i (volume sizes)).symm
      _ ≤ size.trips * volume sizes := Nat.mul_le_mul_right _ hi

/-- Elements lie at different indices. -/
theorem indexAt_offset (h : Within sizes index) : indexAt sizes (offset sizes index) = index := by
  induction h with
  | nil => rfl
  | @cons size i sizes is hi hrest ih =>
    have hlt := offset_lt hrest
    have hpos : 0 < volume sizes := Nat.lt_of_le_of_lt (Nat.zero_le _) hlt
    rw [offset, indexAt, Nat.mul_comm, Nat.mul_add_div hpos, Nat.div_eq_of_lt hlt, Nat.add_zero,
      Nat.mul_add_mod, Nat.mod_eq_of_lt hlt, ih]

/-- Every element lies at an index. -/
theorem offset_indexAt {e : Nat} (h : e < volume sizes) :
    Within sizes (indexAt sizes e) ∧ offset sizes (indexAt sizes e) = e := by
  induction sizes generalizing e with
  | nil => exact ⟨.nil, (Nat.lt_one_iff.1 h).symm⟩
  | cons size sizes ih =>
    rw [volume_cons] at h
    have hpos : 0 < volume sizes := Nat.pos_of_mul_pos_left (Nat.lt_of_le_of_lt (Nat.zero_le e) h)
    obtain ⟨hwithin, hoffset⟩ := ih (Nat.mod_lt e hpos)
    refine ⟨.cons (Nat.div_lt_of_lt_mul (Nat.mul_comm _ _ ▸ h)) hwithin, ?_⟩
    rw [indexAt, offset, hoffset, Nat.div_add_mod']

theorem bump_zero (index : List Nat) : bump 0 index = index := by
  induction index with
  | nil => rfl
  | cons i is ih =>
    cases is with
    | nil => rfl
    | cons i' is => rw [bump, ih]

theorem offset_bump (hlength : index.length = sizes.length) (hne : sizes ≠ []) (k : Nat) :
    offset sizes (bump k index) = offset sizes index + k := by
  induction sizes generalizing index with
  | nil => exact absurd rfl hne
  | cons size sizes ih =>
    cases index with
    | nil => cases hlength
    | cons i is =>
      cases is with
      | nil =>
        cases sizes with
        | nil => simp [bump, offset, volume]
        | cons _ _ => simp at hlength
      | cons i' is =>
        cases sizes with
        | nil => simp at hlength
        | cons size' sizes =>
          have hrest := ih (Nat.succ.inj hlength) (cons_ne_nil _ _)
          show i * volume (size' :: sizes) + offset (size' :: sizes) (bump k (i' :: is)) = _
          rw [hrest, ← Nat.add_assoc]
          rfl

/-! ## Runs -/

/-- A run of the body of a tower at an index, and how many elements it handles; the last answer
    tells whether the tail makes it. -/
inductive Spot (inc : Amount) : List Amount → List Nat → Nat → Bool → Prop
  | whole {size : Amount} {j : Nat} (inside : j < (size / inc).trips) : Spot inc [size] [inc.trips * j] inc.trips false
  | rest {size : Amount} (odd : size % inc ≠ 0) :
      Spot inc [size] [inc.trips * (size / inc).trips] (size % inc).trips true
  | outer {size : Amount} {sizes : List Amount} {i : Nat} {is : List Nat} {c : Nat} {tail : Bool}
    (inside : i < size.trips)
      (spot : Spot inc sizes is c tail) : Spot inc (size :: sizes) (i :: is) c tail

namespace Spot

variable {c : Nat} {tail : Bool} (h : Spot inc sizes index c tail)

include h

theorem ne_nil : sizes ≠ [] := by
  cases h <;> exact cons_ne_nil _ _

theorem length_eq : index.length = sizes.length := by
  induction h with
  | whole => rfl
  | rest => rfl
  | outer _ _ ih => rw [length_cons, length_cons, ih]

/-- The last index and the elements handled stay within the last dimension. -/
theorem within_bump (hinc : 0 < inc) (hsizes : ∀ d ∈ sizes, 0 ≤ d) {k : Nat} (hk : k < c) :
    Within sizes (bump k index) := by
  induction h with
  | @whole size j inside =>
    refine .cons ?_ .nil
    have hsum := Amount.trips_eq (hsizes size mem_cons_self) hinc
    calc inc.trips * j + k < inc.trips * j + inc.trips := Nat.add_lt_add_left hk _
      _ = inc.trips * (j + 1) := (Nat.mul_succ _ _).symm
      _ ≤ inc.trips * (size / inc).trips := Nat.mul_le_mul_left _ inside
      _ ≤ size.trips := by rw [hsum, Nat.mul_comm]; exact Nat.le_add_right _ _
  | @rest size odd =>
    refine .cons ?_ .nil
    rw [Amount.trips_eq (hsizes size mem_cons_self) hinc, Nat.mul_comm]
    exact Nat.add_lt_add_left hk _
  | @outer size sizes i is c tail inside spot ih =>
    have hrest := ih (fun d hd => hsizes d (mem_cons_of_mem size hd)) hk
    cases is with
    | nil => exact absurd (length_eq_zero_iff.1 spot.length_eq.symm) spot.ne_nil
    | cons i' is => exact .cons inside hrest

/-- A run handles some elements. -/
theorem pos (hinc : 0 < inc) (hsizes : ∀ d ∈ sizes, 0 ≤ d) : 0 < c := by
  have htrips : ∀ {a : Amount}, 0 < a → 0 < a.trips := fun {a} ha => by
    have := Amount.lt_iff.1 ha
    rw [Amount.trips]
    exact Int.lt_toNat.2 this
  induction h with
  | whole => exact htrips hinc
  | @rest size odd =>
    have hbounds := Amount.toInt_mod_bounds (hsizes size mem_cons_self) hinc
    exact htrips (Amount.lt_iff.2 (lt_of_le_of_ne hbounds.1 fun hzero => odd (Amount.eq_iff.2 hzero.symm)))
  | outer _ _ ih => exact ih fun d hd => hsizes d (mem_cons_of_mem _ hd)

theorem within (hinc : 0 < inc) (hsizes : ∀ d ∈ sizes, 0 ≤ d) : Within sizes index :=
  bump_zero index ▸ h.within_bump hinc hsizes (h.pos hinc hsizes)

/-- How many elements a run handles. -/
theorem count_eq (hne : sizes ≠ []) :
    (tail = false → c = inc.trips) ∧
    (tail = true → c = (sizes.getLast hne % inc).trips ∧ sizes.getLast hne % inc ≠ 0) := by
  induction h with
  | whole => exact ⟨fun _ => rfl, fun h => (nomatch h)⟩
  | rest odd => exact ⟨fun h => (nomatch h), fun _ => ⟨rfl, odd⟩⟩
  | outer _ spot ih =>
    rw [getLast_cons spot.ne_nil]
    exact ih spot.ne_nil

end Spot

/-- Every index belongs to a run. -/
theorem exists_spot (hinc : 0 < inc) (hsizes : ∀ d ∈ sizes, 0 ≤ d) (hne : sizes ≠ [])
    (h : Within sizes index) :
    ∃ start c tail k, Spot inc sizes start c tail ∧ k < c ∧ index = bump k start := by
  induction h with
  | nil => exact absurd rfl hne
  | @cons size i sizes is hi hrest ih =>
    cases hrest with
    | nil =>
      have hsum := Amount.trips_eq (hsizes size mem_cons_self) hinc
      have hpos : 0 < inc.trips := by
        have := Amount.lt_iff.1 hinc
        rw [Amount.trips]
        exact Int.lt_toNat.2 this
      by_cases hwhole : i / inc.trips < (size / inc).trips
      · refine ⟨[inc.trips * (i / inc.trips)], inc.trips, false, i % inc.trips, .whole hwhole, Nat.mod_lt _ hpos, ?_⟩
        rw [bump, Nat.div_add_mod]
      · have hle : inc.trips * (size / inc).trips ≤ i := by
          rw [Nat.mul_comm]
          exact (Nat.le_div_iff_mul_le hpos).1 (Nat.not_lt.1 hwhole)
        rw [Nat.mul_comm] at hsum
        refine ⟨_, _, true, i - inc.trips * (size / inc).trips, .rest fun heven => ?_, ?_, ?_⟩
        · rw [heven, show (0 : Amount).trips = 0 from rfl] at hsum
          omega
        · omega
        · rw [bump]
          congr 1
          omega
    | @cons size' i' sizes is hi' hrest =>
      obtain ⟨start, c, tail, k, hspot, hk, hbump⟩ := ih (fun d hd => hsizes d (mem_cons_of_mem size hd))
        (cons_ne_nil _ _)
      refine ⟨i :: start, c, tail, k, .outer hi hspot, hk, ?_⟩
      cases start with
      | nil => cases hspot.length_eq
      | cons s start => rw [bump, hbump]

/-- How far each tensor has moved at an index. -/
def along : List Shift → List Nat → Shift
  | r :: rs, i :: is => scaled r (Int64.ofNat i) + along rs is
  | _, _ => 0

/-- The jobs of a tower are its runs. -/
theorem mem_towerJobs_iff (hinc : 0 < inc) (vector tail : List Expr)
    (hlength : rs.length = sizes.length) {j : Job} :
    j ∈ towerJobs inc vector tail sizes rs ↔
      ∃ index c last, Spot inc sizes index c last ∧ j = ⟨along rs index, c, if last then tail else vector⟩ := by
  have hshift : ∀ (r : Shift) (i : Nat), scaled r (inc * Int64.ofNat i) = along [r] [inc.trips * i] := by
    intro r i
    show _ = scaled r (Int64.ofNat (inc.trips * i)) + 0
    rw [Journey.shift_add_zero, Int64.ofNat_mul, Amount.ofNat_trips (Int64.le_of_lt hinc)]
  induction sizes generalizing rs j with
  | nil =>
    obtain rfl := length_eq_zero_iff.1 hlength
    constructor
    · intro hj
      cases hj
    · rintro ⟨index, c, last, hspot, -⟩
      cases hspot
  | cons size sizes ih =>
    cases rs with
    | nil => cases hlength
    | cons r rs =>
      have hlength' : rs.length = sizes.length := Nat.succ.inj hlength
      cases sizes with
      | nil =>
        obtain rfl := length_eq_zero_iff.1 hlength'
        rw [towerJobs, mem_append, mem_map]
        constructor
        · rintro (⟨i, hi, rfl⟩ | hj)
          · exact ⟨_, _, false, .whole (mem_range.1 hi), by rw [hshift]; rfl⟩
          · by_cases hrest : size % inc = 0
            · rw [if_pos hrest] at hj
              cases hj
            · rw [if_neg hrest, mem_singleton] at hj
              exact ⟨_, _, true, .rest hrest, by rw [hj, hshift]; rfl⟩
        · rintro ⟨index, c, last, hspot, rfl⟩
          cases hspot with
          | @whole _ i inside => exact .inl ⟨i, mem_range.2 inside, by rw [hshift]; rfl⟩
          | rest odd =>
            refine .inr ?_
            rw [if_neg odd, mem_singleton, hshift]
            rfl
          | outer _ spot => cases spot
      | cons size' sizes =>
        cases rs with
        | nil => cases hlength'
        | cons r' rs =>
          show j ∈ (range size.trips).flatMap _ ↔ _
          rw [mem_flatMap]
          constructor
          · rintro ⟨i, hi, hj⟩
            obtain ⟨j', hj', rfl⟩ := mem_map.1 hj
            obtain ⟨index, c, last, hspot, rfl⟩ := (ih hlength').1 hj'
            exact ⟨i :: index, c, last, .outer (mem_range.1 hi) hspot, rfl⟩
          · rintro ⟨index, c, last, hspot, rfl⟩
            cases hspot with
            | @outer _ _ i is _ _ inside spot =>
              refine ⟨i, mem_range.2 inside, mem_map.2 ⟨_, (ih hlength').2 ⟨is, c, last, spot, rfl⟩, ?_⟩⟩
              rfl

/-! ## Where tensors stand -/

/-- The tensor moves with the loops of a shape as its own shape demands: in each dimension by the
    elements of the dimensions inside, or not at all where it has a single element. -/
inductive Follows (T : TensorId) : List Amount → List Amount → List Shift → Prop
  | nil : Follows T [] [] []
  | stride {size : Amount} {sizes own : List Amount} {r : Shift} {rs : List Shift}
      (rate : r T = Int64.ofNat (volume own)) (inside : Follows T sizes own rs) :
      Follows T (size :: sizes) (size :: own) (r :: rs)
  | still {size : Amount} {sizes own : List Amount} {r : Shift} {rs : List Shift} (rate : r T = 0)
      (inside : Follows T sizes own rs) : Follows T (size :: sizes) (1 :: own) (r :: rs)

/-- A tensor stands at the element at the index, which is the first one in each dimension where it
    has a single one. -/
theorem Follows.along_eq {own : List Amount} (h : Follows T sizes own rs)
    (hindex : Within sizes index) :
    along rs index T = Int64.ofNat (offset own (clamp own index)) := by
  induction h generalizing index with
  | nil =>
    cases hindex
    rfl
  | @stride size sizes own r rs rate inside ih =>
    cases hindex with
    | @cons _ i _ is hi hrest =>
      show r T * Int64.ofNat i + along rs is T = _
      rw [ih hrest, rate, clamp_cons, clamp_index hi, offset, Int64.ofNat_add, Int64.ofNat_mul, Int64.mul_comm]
  | @still size sizes own r rs rate inside ih =>
    cases hindex with
    | @cons _ i _ is hi hrest =>
      show r T * Int64.ofNat i + along rs is T = _
      rw [ih hrest, rate, clamp_cons, if_pos rfl, offset, Int64.zero_mul, Int64.zero_add, Nat.zero_mul, Nat.zero_add]

/-- In a shape without dimensions to hold still the index stays as it is. -/
theorem clamp_self (h : Within sizes index) : clamp sizes index = index := by
  induction h with
  | nil => rfl
  | @cons size i sizes is hi _ ih =>
    rw [clamp_cons, clamp_index hi, ih]

end KernelLoops
