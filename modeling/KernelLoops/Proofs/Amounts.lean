import Mathlib.Tactic.Linarith
import Mathlib.Tactic.Ring
import KernelLoops.Amount

set_option autoImplicit false

/-! # Amounts as integers

Sums and products of amounts wrap around. Where the exact result fits into a word, the word is that
result; these are the lemmas that take a computation on amounts to the integers. -/

namespace KernelLoops.Amount

variable {a b work : Amount}

/-- An integer that fits into a word is not changed by wrapping. -/
theorem bmod_word {x : Int} (lower : -0x8000000000000000 ≤ x) (upper : x < 0x8000000000000000) :
    x.bmod 0x10000000000000000 = x :=
  Int.bmod_eq_of_le (by omega) (by omega)

theorem toInt_upper (a : Amount) : a.toInt < 0x8000000000000000 := Int64.toInt_lt a

theorem toInt_add_of_fits (lower : -0x8000000000000000 ≤ a.toInt + b.toInt)
    (upper : a.toInt + b.toInt < 0x8000000000000000) : (a + b).toInt = a.toInt + b.toInt := by
  rw [Int64.toInt_add]
  exact bmod_word lower upper

/-- A sum of two amounts that are not negative is exact, or it is too large and wraps below zero. -/
theorem toInt_add_of_nonneg (ha : 0 ≤ a.toInt) (hb : 0 ≤ b.toInt) :
    (a + b).toInt = a.toInt + b.toInt ∨ 0x8000000000000000 ≤ a.toInt + b.toInt ∧ (a + b).toInt < 0 := by
  have hupper := toInt_upper a
  have hupper' := toInt_upper b
  by_cases hfits : a.toInt + b.toInt < 0x8000000000000000
  · exact .inl (toInt_add_of_fits (by omega) hfits)
  · refine .inr ⟨by omega, ?_⟩
    rw [Int64.toInt_add, Int.bmod_def]
    omega

theorem toInt_sub_of_fits (lower : -0x8000000000000000 ≤ a.toInt - b.toInt)
    (upper : a.toInt - b.toInt < 0x8000000000000000) : (a - b).toInt = a.toInt - b.toInt := by
  rw [Int64.toInt_sub]
  exact bmod_word lower upper

theorem toInt_mul_of_fits (lower : -0x8000000000000000 ≤ a.toInt * b.toInt)
    (upper : a.toInt * b.toInt < 0x8000000000000000) : (a * b).toInt = a.toInt * b.toInt := by
  rw [Int64.toInt_mul]
  exact bmod_word lower upper

/-- The quotient of two amounts, the dividend not negative. -/
theorem toInt_div_of_nonneg (ha : 0 ≤ a.toInt) : (a / b).toInt = a.toInt / b.toInt := by
  have hmin : a ≠ Int64.minValue := by
    rintro rfl
    exact absurd ha (by decide)
  rw [Int64.toInt_div_of_ne_left a b hmin, Int.tdiv_eq_ediv_of_nonneg ha]

/-- The remainder of two amounts, the dividend not negative. -/
theorem toInt_mod_of_nonneg (ha : 0 ≤ a.toInt) : (a % b).toInt = a.toInt % b.toInt := by
  rw [Int64.toInt_mod, Int.tmod_eq_emod_of_nonneg ha]

theorem le_iff : a ≤ b ↔ a.toInt ≤ b.toInt := Int64.le_iff_toInt_le

theorem lt_iff : a < b ↔ a.toInt < b.toInt := Int64.lt_iff_toInt_lt

theorem eq_iff : a = b ↔ a.toInt = b.toInt := Int64.toInt_inj.symm

/-- The larger of two amounts. -/
theorem toInt_max (a b : Amount) : (max a b).toInt = max a.toInt b.toInt := by
  show (if a ≤ b then b else a).toInt = _
  by_cases h : a ≤ b
  · rw [if_pos h, max_eq_right (le_iff.1 h)]
  · rw [if_neg h, max_eq_left (le_of_not_ge fun hab => h (le_iff.2 hab))]

/-- The smaller of two amounts. -/
theorem toInt_min (a b : Amount) : (min a b).toInt = min a.toInt b.toInt := by
  show (if a ≤ b then a else b).toInt = _
  by_cases h : a ≤ b
  · rw [if_pos h, min_eq_left (le_iff.1 h)]
  · rw [if_neg h, min_eq_right (le_of_not_ge fun hab => h (le_iff.2 hab))]

/-- An amount that is not negative is its number of trips. -/
theorem ofNat_trips (ha : 0 ≤ a) : Int64.ofNat a.trips = a := by
  have ha' : 0 ≤ a.toInt := le_iff.1 ha
  have hupper := toInt_upper a
  refine eq_iff.2 ?_
  rw [Int64.toInt_ofNat_of_lt (by rw [trips]; omega), trips]
  omega

theorem min_of_le (h : a ≤ b) : min a b = a := if_pos h

theorem min_of_lt (h : b < a) : min a b = b := if_neg (Int64.not_le.2 h)

theorem trips_pos (h : 0 < a) : 0 < a.trips := by
  have : 0 < a.toInt := lt_iff.1 h
  rw [trips]
  omega

theorem min_pos (ha : 0 < a) (hb : 0 < b) : 0 < min a b := by
  rcases Int64.le_total a b with h | h
  · exact (min_of_le h).symm ▸ ha
  · rcases Int64.lt_or_eq_of_le h with h | rfl
    · exact (min_of_lt h).symm ▸ hb
    · exact (min_of_le (Int64.le_refl b)).symm ▸ hb

/-- A whole amount goes back by as many units as it has. -/
theorem neg_div_self (h : 0 < a) : -a / a = -1 := by
  have hpos : 0 < a.toInt := lt_iff.1 h
  have hupper := toInt_upper a
  have hneg : (-a).toInt = -a.toInt := by
    rw [Int64.toInt_neg]
    exact bmod_word (by omega) (by omega)
  refine eq_iff.2 ?_
  rw [Int64.toInt_div, hneg, Int.neg_tdiv, Int.tdiv_self hpos.ne']
  rfl

/-! ## Work in whole steps -/

/-- What a whole number of steps leaves over. -/
theorem toInt_mod_bounds {step : Amount} (hwork : 0 ≤ work) (hstep : 0 < step) :
    0 ≤ (work % step).toInt ∧ (work % step).toInt < step.toInt ∧ (work % step).toInt ≤ work.toInt := by
  have hwork' : 0 ≤ work.toInt := le_iff.1 hwork
  have hstep' : 0 < step.toInt := lt_iff.1 hstep
  have hquot : 0 ≤ step.toInt * (work.toInt / step.toInt) :=
    Int.mul_nonneg hstep'.le (Int.ediv_nonneg hwork' hstep'.le)
  have hdiv := Int.mul_ediv_add_emod work.toInt step.toInt
  rw [toInt_mod_of_nonneg hwork']
  exact ⟨Int.emod_nonneg _ hstep'.ne', Int.emod_lt_of_pos _ hstep', by omega⟩

/-- A rest that is left is less than one step. -/
theorem mod_pos {step : Amount} (hwork : 0 ≤ work) (hstep : 0 < step) (hrest : work % step ≠ 0) :
    0 < work % step ∧ work % step < step := by
  obtain ⟨hlower, hupper, -⟩ := toInt_mod_bounds hwork hstep
  exact ⟨lt_iff.2 (lt_of_le_of_ne hlower fun hzero => hrest (eq_iff.2 hzero.symm)), lt_iff.2 hupper⟩

theorem one_lt (ha : 0 < a) (hne : a ≠ 1) : 1 < a :=
  lt_iff.2 (lt_of_le_of_ne (lt_iff.1 ha) fun hone => hne (eq_iff.2 hone.symm))

/-- Single steps leave no rest. -/
theorem one_lt_of_mod {step : Amount} (hstep : 0 < step) (hrest : work % step ≠ 0) : 1 < step := by
  refine one_lt hstep fun hone => hrest ?_
  rw [hone]
  exact Int64.mod_one

theorem toInt_sub_mod {step : Amount} (hwork : 0 ≤ work) (hstep : 0 < step) :
    (work - work % step).toInt = work.toInt - (work % step).toInt := by
  obtain ⟨hlower, -, hupper⟩ := toInt_mod_bounds hwork hstep
  have hfits := toInt_upper work
  exact toInt_sub_of_fits (by omega) (by omega)

/-- What is left without the rest is made of whole steps. -/
theorem sub_mod_mod {step : Amount} (hwork : 0 ≤ work) (hstep : 0 < step) :
    (work - work % step) % step = 0 := by
  obtain ⟨-, -, hle⟩ := toInt_mod_bounds hwork hstep
  have hsub := toInt_sub_mod hwork hstep
  rw [eq_iff, toInt_mod_of_nonneg (by omega), hsub, toInt_mod_of_nonneg (le_iff.1 hwork)]
  exact Int.emod_eq_zero_of_dvd (Int.dvd_self_sub_of_emod_eq rfl)

theorem sub_mod_nonneg {step : Amount} (hwork : 0 ≤ work) (hstep : 0 < step) :
    0 ≤ work - work % step := by
  obtain ⟨-, -, hle⟩ := toInt_mod_bounds hwork hstep
  exact le_iff.2 (toInt_sub_mod hwork hstep ▸ Int.sub_nonneg_of_le hle)

/-- A whole step of work is more than the rest. -/
theorem sub_mod_pos {step : Amount} (hstep : 0 < step) (hle : step ≤ work) :
    0 < work - work % step := by
  have hwork : 0 ≤ work := Int64.le_trans (Int64.le_of_lt hstep) hle
  obtain ⟨-, hless, -⟩ := toInt_mod_bounds hwork hstep
  exact lt_iff.2 (toInt_sub_mod hwork hstep ▸ Int.sub_pos_of_lt (hless.trans_le (le_iff.1 hle)))

/-- Less work than one step is all rest. -/
theorem mod_of_lt {step : Amount} (hwork : 0 ≤ work) (hless : work < step) : work % step = work := by
  have hwork' : 0 ≤ work.toInt := le_iff.1 hwork
  rw [eq_iff, toInt_mod_of_nonneg hwork', Int.emod_eq_of_lt hwork' (lt_iff.1 hless)]

theorem div_of_lt {step : Amount} (hwork : 0 ≤ work) (hless : work < step) : work / step = 0 := by
  have hwork' : 0 ≤ work.toInt := le_iff.1 hwork
  rw [eq_iff, toInt_div_of_nonneg hwork', Int.ediv_eq_zero_of_lt hwork' (lt_iff.1 hless)]
  rfl

theorem trips_div_of_lt {step : Amount} (hwork : 0 ≤ work) (hless : work < step) :
    (work / step).trips = 0 := by
  rw [div_of_lt hwork hless]
  rfl

/-- Work that leaves no rest is none, or at least one step. -/
theorem le_of_mod_eq_zero {step : Amount} (hwork : 0 ≤ work) (hne : work ≠ 0)
    (hmod : work % step = 0) : step ≤ work :=
  Int64.not_lt.1 fun hless => hne ((mod_of_lt hwork hless).symm.trans hmod)

theorem ne_zero_of_mod {step : Amount} (hrest : work % step ≠ 0) : work ≠ 0 := fun hzero =>
  hrest (by rw [hzero]; exact Int64.zero_mod)

/-- Less than two steps: a step that cannot be doubled within a word has nothing below its
    double. -/
theorem lt_double_iff {step : Amount} (hwork : 0 ≤ work) (hstep : 0 < step) :
    work < 2 * step ↔ work.toInt < 2 * step.toInt ∧ step.toInt < 0x4000000000000000 := by
  have hwork' : 0 ≤ work.toInt := le_iff.1 hwork
  have hstep' : 0 < step.toInt := lt_iff.1 hstep
  have hfits := toInt_upper step
  have hdouble : (2 * step).toInt = (2 * step.toInt).bmod 0x10000000000000000 := Int64.toInt_mul 2 step
  rw [lt_iff, hdouble]
  by_cases hsmall : step.toInt < 0x4000000000000000
  · rw [bmod_word (by omega) (by omega)]
    exact ⟨fun h => ⟨h, hsmall⟩, And.left⟩
  · have hwraps : (2 * step.toInt).bmod 0x10000000000000000 = 2 * step.toInt - 0x10000000000000000 := by
      rw [Int.bmod_def]
      omega
    rw [hwraps]
    omega

theorem trips_div_of_lt_double {step : Amount} (hstep : 0 < step) (hle : step ≤ work)
    (hless : work < 2 * step) :
    (work / step).trips = 1 := by
  have hstep' : 0 < step.toInt := lt_iff.1 hstep
  have hle' := le_iff.1 hle
  have hless' := ((lt_double_iff (Int64.le_trans (Int64.le_of_lt hstep) hle) hstep).1 hless).1
  have hquot : work.toInt / step.toInt = 1 := by
    rw [Int.ediv_eq_iff_of_pos hstep']
    omega
  rw [trips, toInt_div_of_nonneg (by omega), hquot]
  rfl

/-- What is less than the mark of unknown amounts is known. -/
theorem isDynamic_of_lt (ha : a < dynamic) : a.isDynamic = false := by
  rw [isDynamic, beq_eq_false_iff_ne]
  rintro rfl
  exact Int64.lt_irrefl ha

/-- No more than a known amount is known. -/
theorem isDynamic_of_le (ha : a.isDynamic = false) (hle : b ≤ a) : b.isDynamic = false := by
  rw [isDynamic, beq_eq_false_iff_ne] at ha ⊢
  rintro rfl
  refine ha (eq_iff.2 (le_antisymm ?_ (le_iff.1 hle)))
  have hmax := toInt_upper a
  show a.toInt ≤ 0x7fffffffffffffff
  omega

theorem max_spec (a b : Amount) : a ≤ max a b ∧ b ≤ max a b ∧ (max a b = a ∨ max a b = b) := by
  have hmax : max a b = if a ≤ b then b else a := rfl
  rw [hmax]
  split
  · next h => exact ⟨h, Int64.le_refl b, .inr rfl⟩
  · next h => exact ⟨Int64.le_refl a, Int64.le_of_lt (Int64.not_le.1 h), .inl rfl⟩

end KernelLoops.Amount
