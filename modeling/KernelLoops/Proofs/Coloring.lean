import Mathlib.Data.List.Pairwise
import Mathlib.Data.List.Perm.Subperm
import KernelLoops.Pass.Buffers
import KernelLoops.Proofs.Listing

set_option autoImplicit false

/-! # Colors keep conflicting buffers apart

A conflict graph only grows while the loops of a kernel are looked at, and buffers that are in
conflict never get one color. So two buffers that some loop steps in conflicting ways have different
colors once the kernel is colored. -/

namespace KernelLoops

open List

variable {g g' : ConflictGraph} {a b : ExprId} {rows : List (List Int)} {group row : List Int}
  {i j n : Nat} {α : Type}

/-- A list without its repetitions has none. -/
theorem nodup_eraseDups [DecidableEq α] (xs : List α) : xs.eraseDups.Nodup := by
  induction h : xs.length using Nat.strongRecOn generalizing xs with
  | _ n ih =>
    cases xs with
    | nil => simp
    | cons x rest =>
      rw [eraseDups_cons, nodup_cons]
      refine ⟨by simp [mem_eraseDups], ih _ ?_ _ rfl⟩
      have := length_filter_le (fun y => !y == x) rest
      rw [← h, length_cons]
      omega

namespace ConflictGraph

/-! ## Coloring -/

/-- Is the buffer at position `j` in the row of the one at position `i`? -/
def Adjacent (g : ConflictGraph) (i j : Nat) : Prop := ∃ row, g.rows[i]? = some row ∧ (j : Int) ∈ row

theorem mem_insertInto {i j : Int} : i ∈ insertInto row j ↔ i ∈ row ∨ i = j := by
  unfold insertInto
  split
  · next h =>
      rw [contains_iff_mem] at h
      exact ⟨Or.inl, fun hi => hi.elim id fun hij => hij ▸ h⟩
  · rw [mem_append, mem_singleton]

theorem mem_union {other : List Int} {i : Int} : i ∈ union row other ↔ i ∈ row ∨ i ∈ other := by
  unfold union
  induction other generalizing row with
  | nil => simp
  | cons j rest ih =>
    rw [foldl_cons, ih, mem_insertInto, mem_cons, or_assoc]

/-! ## Coloring by runs -/

/-- Colors the buffers from position `j` on by runs, given the color of the one before and the
    conflicts of all buffers of that color: a buffer keeps the color unless it is in conflict with
    the group. -/
def colorFrom (color : Nat) (group : List Int) (j : Nat) : List (List Int) → List Nat
  | [] => []
  | row :: rest =>
    if group.contains (j : Int) then (color + 1) :: colorFrom (color + 1) row (j + 1) rest
    else color :: colorFrom color (union group row) (j + 1) rest

/-- Colors the buffers from position `j` on by runs, the first one with a new color. -/
def colorAnew (color j : Nat) : List (List Int) → List Nat
  | [] => []
  | row :: rest => color :: colorFrom color row (j + 1) rest

/-- Colors only go up. -/
theorem le_of_mem_colorFrom {color c : Nat} (h : c ∈ colorFrom color group j rows) : color ≤ c := by
  induction rows generalizing color group j with
  | nil => cases h
  | cons row rest ih =>
    rw [colorFrom] at h
    split at h
    · rcases mem_cons.1 h with rfl | h
      · exact Nat.le_succ color
      · exact Nat.le_of_succ_le (ih h)
    · rcases mem_cons.1 h with rfl | h
      · exact Nat.le_refl c
      · exact ih h

/-- A buffer that keeps the color is in conflict with none of its group. -/
theorem not_mem_group {color p : Nat} (h : (colorFrom color group j rows)[p]? = some color) :
    ((j + p : Nat) : Int) ∉ group := by
  induction rows generalizing group j p with
  | nil => cases h
  | cons row rest ih =>
    rw [colorFrom] at h
    split at h
    · -- The color was left at `j` and is never used again.
      have hmem := mem_of_getElem? h
      rcases mem_cons.1 hmem with heq | hmem
      · exact absurd heq (Nat.ne_of_lt (Nat.lt_succ_self color))
      · exact absurd (le_of_mem_colorFrom hmem) (Nat.not_succ_le_self color)
    · next hj =>
        cases p with
        | zero => simpa [contains_iff_mem] using hj
        | succ p =>
          rw [getElem?_cons_succ] at h
          intro hgroup
          refine ih h (mem_union.2 (.inl ?_))
          rwa [Nat.add_assoc, Nat.add_comm 1 p]

/-- Buffers in conflict get different colors, however the coloring began. -/
theorem colorFrom_ne {color p q : Nat} (hrow : rows[p]? = some row) (hpq : p < q)
    (hmem : ((j + q : Nat) : Int) ∈ row)
    (hq : q < (colorFrom color group j rows).length) :
    (colorFrom color group j rows)[p]? ≠ (colorFrom color group j rows)[q]? := by
  induction rows generalizing color group j p q with
  | nil => cases hrow
  | cons first rest ih =>
    obtain ⟨q, rfl⟩ : ∃ n, q = n + 1 := ⟨q - 1, by omega⟩
    have hj : ((j + (q + 1) : Nat) : Int) = ((j + 1 + q : Nat) : Int) := by omega
    rw [hj] at hmem
    rw [colorFrom] at hq ⊢
    -- The first buffer is in conflict with a later one: that one left the color of the group.
    cases p with
    | zero =>
      obtain rfl : first = row := by simpa using hrow
      split
      · intro h
        exact not_mem_group h.symm hmem
      · intro h
        exact not_mem_group h.symm (mem_union.2 (.inr hmem))
    | succ p =>
      rw [getElem?_cons_succ] at hrow
      have hpq' : p < q := Nat.lt_of_succ_lt_succ hpq
      split at hq
      · next hc =>
          rw [if_pos hc]
          exact ih hrow hpq' hmem (Nat.lt_of_succ_lt_succ hq)
      · next hc =>
          rw [if_neg hc]
          exact ih hrow hpq' hmem (Nat.lt_of_succ_lt_succ hq)

theorem length_colorFrom (color j : Nat) (group : List Int) (rows : List (List Int)) :
    (colorFrom color group j rows).length = rows.length := by
  induction rows generalizing color group j with
  | nil => rfl
  | cons row rest ih =>
    rw [colorFrom]
    split <;> rw [length_cons, length_cons, ih]

/-- A set of the buffers `0`, ..., `n - 1`. -/
def IsRow (n : Nat) (row : List Int) : Prop := row.Nodup ∧ ∀ j ∈ row, 0 ≤ j ∧ j < n

theorem IsRow.insertInto (h : IsRow n row) (hj : j < n) : IsRow n (insertInto row j) := by
  refine ⟨?_, fun i hi => ?_⟩
  · unfold ConflictGraph.insertInto
    split
    · exact h.1
    · next hnot =>
        rw [← concat_eq_append]
        exact h.1.concat (by simpa [contains_iff_mem] using hnot)
  · rcases mem_insertInto.1 hi with hi | rfl
    · exact h.2 i hi
    · omega

theorem IsRow.union {other : List Int} (h : IsRow n row) (hother : IsRow n other) :
    IsRow n (union row other) := by
  unfold ConflictGraph.union
  have hall := hother.2
  clear hother
  induction other generalizing row with
  | nil => exact h
  | cons i rest ih =>
    obtain ⟨hi, hrest⟩ := forall_mem_cons.1 hall
    have hrow := h.insertInto (j := i.toNat) (by omega)
    rw [Int.toNat_of_nonneg hi.1] at hrow
    exact ih hrow hrest

/-- A set of all buffers has each of them. -/
theorem IsRow.mem_of_full (h : IsRow n row) (hfull : n ≤ row.length) (hj : j < n) :
    (j : Int) ∈ row := by
  have hsub : row ⊆ (range n).map Int.ofNat := by
    intro i hi
    obtain ⟨h0, hlt⟩ := h.2 i hi
    exact mem_map.2 ⟨i.toNat, mem_range.2 (by omega), Int.toNat_of_nonneg h0⟩
  have hperm := (subperm_of_subset h.1 hsub).perm_of_length_le (by simpa using hfull)
  exact hperm.mem_iff.2 (mem_map.2 ⟨j, mem_range.2 hj, rfl⟩)

/-- The rows of a graph are sets of its buffers. -/
structure Formed (g : ConflictGraph) : Prop where
  length : g.rows.length = g.buffers.length
  rows : ∀ row ∈ g.rows, IsRow g.rows.length row

/-! ## The search for colors

While a graph is colored, the buffers that have a color stand before those that have none. So the
search for the next one always ends behind the last colored buffer, and growing one color after the
other is coloring by runs. -/

/-- The palette of `n` buffers of which the first ones have these colors. -/
def Palette.after (n : Nat) (colors : List Nat) : Palette where
  colors := colors ++ replicate (n - colors.length) 0
  colored := replicate colors.length true ++ replicate (n - colors.length) false

section Search

variable {colors : List Nat} {c steps : Nat} {done rest : List (List Int)}

theorem Palette.getD_colored_after (n i : Nat) (colors : List Nat) :
    (after n colors).colored.getD i false = decide (i < colors.length) := by
  rw [after, getD_eq_getElem?_getD, getElem?_append, length_replicate]
  split
  · next h => simp [h]
  · next h =>
      rw [getElem?_replicate, decide_eq_false h]
      split <;> rfl

theorem Palette.uncolored?_after (hi : i ≤ colors.length) (hn : colors.length ≤ n) :
    (after n colors).uncolored? i = if colors.length < n then some colors.length else none := by
  have hsize : (after n colors).colored.length = n := by
    simp [after]
    omega
  simp only [uncolored?, hsize, getD_colored_after]
  split
  · next hlt =>
      rw [find?_range'_eq_some]
      refine ⟨by simp, by simp; omega, fun j _ hj => by simpa using hj⟩
  · next hlt =>
      rw [find?_range'_eq_none]
      intro j _ hj
      simp only [Bool.not_not, decide_eq_true_eq]
      omega

theorem Palette.give_after (hn : colors.length < n) (c : Nat) :
    (after n colors).give colors.length c = after n (colors ++ [c]) := by
  obtain ⟨m, hm⟩ : ∃ m, n - colors.length = m + 1 := ⟨n - colors.length - 1, by omega⟩
  have hrest : n - (colors ++ [c]).length = m := by
    rw [length_append, length_singleton]
    omega
  have hcolored : (replicate colors.length true).length = colors.length := length_replicate
  rw [after, after, give, hrest, hm, Palette.mk.injEq]
  constructor
  · rw [set_append_right _ _ (Nat.le_refl _), Nat.sub_self, replicate_succ, set_cons_zero, append_assoc]
    rfl
  · rw [set_append_right _ _ (Nat.le_of_eq hcolored), hcolored, Nat.sub_self, replicate_succ, set_cons_zero,
      length_append, length_singleton, replicate_succ', append_assoc]
    rfl

/-- A color grows up to the first buffer in conflict with it, where coloring by runs opens the next
    one. -/
theorem grow_after (hg : g.Formed) (hrows : g.rows = done ++ rest)
    (hdone : colors.length = done.length)
    (hi : i < colors.length) (hgroup : IsRow g.rows.length group) (hsteps : rest.length ≤ steps) :
    ∃ added rest', rest = added ++ rest' ∧
      g.grow i c steps group (.after g.buffers.length colors) =
        .after g.buffers.length (colors ++ replicate added.length c) ∧
      colorFrom c group colors.length rest =
        replicate added.length c ++ colorAnew (c + 1) (colors.length + added.length) rest' := by
  have hcount : g.rows.length = done.length + rest.length := by rw [hrows, length_append]
  have hsize := hg.length
  induction rest generalizing colors done group steps with
  | nil =>
    refine ⟨[], [], rfl, ?_, rfl⟩
    simp only [length_nil, replicate_zero, append_nil]
    cases steps with
    | zero => rfl
    | succ steps =>
      rw [length_nil] at hcount
      rw [grow, Palette.uncolored?_after hi (by omega), if_neg (show ¬colors.length < g.buffers.length by omega)]
      split <;> rfl
  | cons row rest ih =>
    obtain ⟨steps, rfl⟩ : ∃ m, steps = m + 1 := ⟨steps - 1, by rw [length_cons] at hsteps; omega⟩
    rw [length_cons] at hcount hsteps
    have hlt : colors.length < g.buffers.length := by omega
    rw [grow, Palette.uncolored?_after hi (Nat.le_of_lt hlt), if_pos hlt, colorFrom]
    by_cases hmem : group.contains ((colors.length : Nat) : Int) = true
    · refine ⟨[], row :: rest, rfl, ?_, ?_⟩
      · simp only [hmem, if_true, ite_self, length_nil, replicate_zero, append_nil]
      · rw [if_pos hmem]
        rfl
    · -- a group with all buffers would have this one
      have hfew : group.length < g.buffers.length := by
        by_contra hfull
        exact hmem (contains_iff_mem.2 (hgroup.mem_of_full (by omega) (by omega)))
      have hrow : g.rows.getD colors.length [] = row := by simp [hrows, hdone]
      have hrows' : g.rows = (done ++ [row]) ++ rest := by rw [hrows, append_assoc, singleton_append]
      have hdone' : (colors ++ [c]).length = (done ++ [row]).length := by simp [hdone]
      obtain ⟨added, rest', hrest, hgrow, hcolors⟩ := ih hrows' hdone'
        (by rw [length_append]; omega) (hgroup.union (hg.rows row (hrows ▸ by simp))) (Nat.le_of_succ_le_succ hsteps)
        (by rw [hcount, length_append, length_singleton]; omega)
      rw [length_append, length_singleton] at hcolors
      refine ⟨row :: added, rest', by rw [hrest, cons_append], ?_, ?_⟩
      · rw [if_pos hfew]
        dsimp only
        rw [if_neg hmem, hrow, Palette.give_after hlt, hgrow, append_assoc, length_cons, replicate_succ]
        rfl
      · rw [if_neg hmem, hcolors, length_cons, replicate_succ, cons_append, Nat.add_assoc, Nat.add_comm 1]

/-- Looking at the buffers that are left colors them by runs. -/
theorem foldl_visit (hg : g.Formed) (hrows : g.rows = done ++ rest)
    (hdone : colors.length = done.length)
    (hi : i ≤ colors.length) {count : Nat} (hcount : i + count = g.buffers.length) :
    ((range' i count).foldl g.visit (.after g.buffers.length colors, c)).1.colors =
      colors ++ colorAnew c colors.length rest := by
  have hsize : g.buffers.length = done.length + rest.length := by rw [← hg.length, hrows, length_append]
  induction count generalizing i colors done rest c with
  | zero =>
    obtain rfl : rest = [] := length_eq_zero_iff.1 (by omega)
    simp only [range'_zero, foldl_nil, Palette.after, colorAnew]
    rw [show g.buffers.length - colors.length = 0 by omega, replicate_zero]
  | succ count ih =>
    rw [range'_succ, foldl_cons, visit, Palette.getD_colored_after]
    by_cases hlt : i < colors.length
    · rw [if_pos (decide_eq_true hlt)]
      exact ih hrows hdone hlt (by omega) hsize
    · obtain rfl : i = colors.length := by omega
      rw [if_neg (by simp)]
      cases rest with
      | nil =>
        rw [length_nil] at hsize
        omega
      | cons row rest =>
        have hrow : g.rows.getD colors.length [] = row := by simp [hrows, hdone]
        have hrows' : g.rows = (done ++ [row]) ++ rest := by rw [hrows, append_assoc, singleton_append]
        rw [length_cons] at hsize
        have hdone' : (colors ++ [c]).length = (done ++ [row]).length := by simp [hdone]
        have hsteps : rest.length ≤ g.buffers.length := by omega
        obtain ⟨added, rest', rfl, hgrow, hcolors⟩ := grow_after (c := c) (i := colors.length) hg hrows' hdone'
          (by simp) (hg.rows row (hrows ▸ by simp)) hsteps
        have hrows'' : g.rows = (done ++ [row] ++ added) ++ rest' := by rw [hrows', append_assoc (done ++ [row])]
        rw [hrow, Palette.give_after (by omega), hgrow,
          ih hrows'' (by simp [hdone]) (by simp) (by omega) (by simp at hsize ⊢; omega)]
        simp only [length_append, length_singleton, length_replicate] at hcolors ⊢
        rw [colorAnew, hcolors, append_assoc, append_assoc, singleton_append]

/-- Where every two buffers are in conflict, every buffer opens a color. -/
theorem colorFrom_of_full {rows : List (List Int)} (hgroup : ∀ i < n, (i : Int) ∈ group)
    (hrows : ∀ row ∈ rows, ∀ i < n, (i : Int) ∈ row) (hj : j + rows.length ≤ n) :
    colorFrom c group j rows = range' (c + 1) rows.length := by
  induction rows generalizing c group j with
  | nil => rfl
  | cons row rest ih =>
    rw [length_cons] at hj
    obtain ⟨hrow, hrest⟩ := forall_mem_cons.1 hrows
    rw [colorFrom, if_pos (contains_iff_mem.2 (hgroup j (by omega))), ih hrow hrest (by omega), length_cons,
      range'_succ]

end Search

/-- The colors of a graph are those of coloring by runs. -/
theorem color_eq_runs (hg : g.Formed) : g.color = colorAnew 0 0 g.rows := by
  rw [color]
  split
  · next hcomplete =>
      have hfull : ∀ row ∈ g.rows, ∀ i < g.rows.length, (i : Int) ∈ row := by
        intro row hrow i hi
        have hlength := all_eq_true.1 hcomplete row hrow
        exact (hg.rows row hrow).mem_of_full (Nat.le_of_eq (of_decide_eq_true hlength).symm) hi
      rw [← hg.length]
      cases hrows : g.rows with
      | nil => rfl
      | cons row rest =>
        rw [hrows] at hfull
        obtain ⟨hrow, hrest⟩ := forall_mem_cons.1 hfull
        rw [colorAnew, colorFrom_of_full hrow hrest (by rw [length_cons]; omega), length_cons, range_eq_range',
          range'_succ]
  · have hnone : ([] : List Nat).length = ([] : List (List Int)).length := rfl
    have hvisit := foldl_visit (c := 0) hg (nil_append g.rows).symm hnone (Nat.le_refl 0)
      (Nat.zero_add g.buffers.length)
    rw [range_eq_range']
    simpa [Palette.after] using hvisit

/-- There is one color per buffer. -/
theorem length_color (hg : g.Formed) : g.color.length = g.rows.length := by
  rw [color_eq_runs hg]
  cases g.rows with
  | nil => rfl
  | cons row rest => rw [colorAnew, length_cons, length_cons, length_colorFrom]

/-- Buffers in conflict get different colors. -/
theorem color_ne_of_adjacent (hg : g.Formed) (h : g.Adjacent i j) (hij : i < j)
    (hj : j < g.rows.length) :
    g.color[i]? ≠ g.color[j]? := by
  obtain ⟨row, hrow, hmem⟩ := h
  cases hrows : g.rows with
  | nil =>
    rw [hrows] at hj
    exact absurd hj (Nat.not_lt_zero j)
  | cons first rest =>
    have hcolor : g.color = 0 :: colorFrom 0 first 1 rest := by rw [color_eq_runs hg, hrows, colorAnew]
    rw [← length_color hg, hcolor] at hj
    rw [hrows] at hrow
    rw [hcolor]
    obtain ⟨j, rfl⟩ : ∃ n, j = n + 1 := ⟨j - 1, by omega⟩
    have hj' : ((j + 1 : Nat) : Int) = ((1 + j : Nat) : Int) := by omega
    rw [hj'] at hmem
    cases i with
    | zero =>
      obtain rfl : first = row := by simpa using hrow
      intro heq
      exact not_mem_group heq.symm hmem
    | succ i =>
      rw [getElem?_cons_succ] at hrow
      exact colorFrom_ne hrow (Nat.lt_of_succ_lt_succ hij) hmem (Nat.lt_of_succ_lt_succ hj)

/-! ## Growing -/

/-- A graph over the same buffers with all the conflicts of another one. -/
structure Extends (g' g : ConflictGraph) : Prop where
  buffers : g'.buffers = g.buffers
  length : g'.rows.length = g.rows.length
  adjacent : ∀ {i j}, g.Adjacent i j → g'.Adjacent i j
  formed : g.Formed → g'.Formed

theorem Extends.refl (g : ConflictGraph) : Extends g g := ⟨rfl, rfl, id, id⟩

theorem Extends.trans {g'' : ConflictGraph} (h' : Extends g'' g') (h : Extends g' g) :
    Extends g'' g :=
  ⟨h'.buffers.trans h.buffers, h'.length.trans h.length, fun hij => h'.adjacent (h.adjacent hij),
    fun hg => h'.formed (h.formed hg)⟩

theorem formed_ofBuffers (buffers : List ExprId) : (ofBuffers buffers).Formed where
  length := by simp [ofBuffers]
  rows row hrow := by
    obtain ⟨i, hi, rfl⟩ := mem_map.1 hrow
    simpa [IsRow, ofBuffers] using hi

/-- Putting `j` into row `i` keeps what was there. -/
theorem of_insertAt_ok {rows' : List (List Int)} (h : insertAt rows i j = .ok rows') :
    rows'.length = rows.length ∧ i < rows.length ∧
      (∀ n, j < n → (∀ row ∈ rows, IsRow n row) → ∀ row ∈ rows', IsRow n row) ∧
      (∃ row, rows'[i]? = some row ∧ (j : Int) ∈ row) ∧
      ∀ (n : Nat) (row : List Int), rows[n]? = some row → ∃ row', rows'[n]? = some row' ∧ ∀ m ∈ row, m ∈ row' := by
  obtain ⟨row, hrow, h⟩ := of_except_bind_ok h
  rw [fetch_eq_ok_iff] at hrow
  cases h
  obtain ⟨hi, -⟩ := List.getElem?_eq_some_iff.1 hrow
  rw [Int.toNat_natCast]
  refine ⟨length_set, hi, fun n hj hall row' hrow' => ?_, ⟨insertInto row j, ?_, mem_insertInto.2 (.inr rfl)⟩,
    fun n old hold => ?_⟩
  · rcases mem_or_eq_of_mem_set hrow' with hmem | rfl
    · exact hall row' hmem
    · exact (hall row (mem_of_getElem? hrow)).insertInto hj
  · rw [getElem?_set_self hi]
  · by_cases hn : i = n
    · subst hn
      rw [hrow] at hold
      cases hold
      exact ⟨_, getElem?_set_self hi, fun m hm => mem_insertInto.2 (.inl hm)⟩
    · exact ⟨old, by rwa [getElem?_set_ne hn], fun m hm => hm⟩

/-- Connecting two buffers puts each in conflict with the other. -/
theorem of_connect_ok (h : g.connect i j = .ok g') : g'.Extends g ∧ g'.Adjacent i j ∧
    g'.Adjacent j i := by
  obtain ⟨rows, hrows, h⟩ := of_except_bind_ok h
  obtain ⟨rows', hrows', h⟩ := of_except_bind_ok h
  cases h
  obtain ⟨hlen, hi, hset, ⟨row, hrow, hmem⟩, hkeep⟩ := of_insertAt_ok hrows
  obtain ⟨hlen', hj, hset', hadj', hkeep'⟩ := of_insertAt_ok hrows'
  refine ⟨⟨rfl, hlen'.trans hlen, ?_, fun hg => ⟨hlen'.trans (hlen.trans hg.length), ?_⟩⟩, ?_, hadj'⟩
  · rintro n m ⟨r, hr, hm⟩
    obtain ⟨r', hr', hsub⟩ := hkeep n r hr
    obtain ⟨r'', hr'', hsub'⟩ := hkeep' n r' hr'
    exact ⟨r'', hr'', hsub' _ (hsub _ hm)⟩
  · show ∀ row ∈ rows', IsRow rows'.length row
    rw [hlen', hlen]
    exact hset' _ hi (hset _ (hlen ▸ hj) hg.rows)
  · obtain ⟨row', hrow', hsub⟩ := hkeep' i row hrow
    exact ⟨row', hrow', hsub _ hmem⟩

/-- The position of a buffer is where it stands. -/
theorem of_index_ok (h : g.index b = .ok i) : g.buffers[i]? = some b := by
  unfold index at h
  split at h
  · next n hn =>
      cases h
      obtain ⟨hlt, hb, -⟩ := findIdx?_eq_some_iff_getElem.1 hn
      rw [getElem?_eq_getElem hlt]
      exact congrArg some (Int.natCast_inj.1 (by simpa using hb))
  · cases h

end ConflictGraph

/-! ## The conflicts of a kernel -/

namespace Kernel

open ConflictGraph

variable {k : Kernel}

/-- The graph has both buffers, in conflict with each other. -/
def Kept (g : ConflictGraph) (a b : ExprId) : Prop :=
  ∃ i j, g.buffers[i]? = some a ∧ g.buffers[j]? = some b ∧ g.Adjacent i j ∧ g.Adjacent j i

theorem Kept.symm : Kept g a b → Kept g b a
  | ⟨i, j, hi, hj, hij, hji⟩ => ⟨j, i, hj, hi, hji, hij⟩

theorem Kept.extends (h : Kept g a b) (hg : g'.Extends g) : Kept g' a b := by
  obtain ⟨i, j, hi, hj, hij, hji⟩ := h
  exact ⟨i, j, hg.buffers ▸ hi, hg.buffers ▸ hj, hg.adjacent hij, hg.adjacent hji⟩

theorem of_connectWith_ok {a : ExprId × Amount} {bs : List (ExprId × Amount)}
    (h : k.connectWith a g bs = .ok g') :
    g'.Extends g ∧ ∀ b ∈ bs, k.conflicting a b = .ok true → Kept g' a.1 b.1 := by
  induction bs generalizing g with
  | nil =>
    cases h
    exact ⟨.refl _, by simp⟩
  | cons b rest ih =>
    obtain ⟨g1, hstep, hrest⟩ := of_except_bind_ok h
    obtain ⟨hgrow, hkept⟩ := ih hrest
    obtain ⟨c, hc, hstep⟩ := of_except_bind_ok hstep
    cases c with
    | false =>
      cases hstep
      refine ⟨hgrow, fun b' hb' hconf => ?_⟩
      rcases mem_cons.1 hb' with rfl | hb'
      · rw [hc] at hconf
        cases hconf
      · exact hkept b' hb' hconf
    | true =>
      obtain ⟨i, hi, hstep⟩ := of_except_bind_ok hstep
      obtain ⟨j, hj, hstep⟩ := of_except_bind_ok hstep
      obtain ⟨hconn, hij, hji⟩ := of_connect_ok hstep
      refine ⟨hgrow.trans hconn, fun b' hb' hconf => ?_⟩
      rcases mem_cons.1 hb' with rfl | hb'
      · have hkept1 : Kept g1 a.1 b'.1 :=
          ⟨i, j, hconn.buffers ▸ of_index_ok hi, hconn.buffers ▸ of_index_ok hj, hij, hji⟩
        exact hkept1.extends hgrow
      · exact hkept b' hb' hconf

theorem of_connectAll_ok {steps : List (ExprId × Amount)} (h : k.connectAll steps g = .ok g') :
    g'.Extends g ∧ steps.Pairwise fun a b => k.conflicting a b = .ok true → Kept g' a.1 b.1 := by
  induction steps generalizing g with
  | nil =>
    cases h
    exact ⟨.refl _, .nil⟩
  | cons a rest ih =>
    obtain ⟨g1, hwith, hrest⟩ := of_except_bind_ok h
    obtain ⟨hgrow1, hkept⟩ := of_connectWith_ok hwith
    obtain ⟨hgrow, hpairs⟩ := ih hrest
    exact ⟨hgrow.trans hgrow1, .cons (fun b hb hconf => (hkept b hb hconf).extends hgrow) hpairs⟩

/-- The order of two stepped buffers does not matter. -/
theorem conflicting_symm {a b : ExprId × Amount} (h : k.conflicting a b = .ok true) :
    k.conflicting b a = .ok true := by
  unfold conflicting at h ⊢
  by_cases hne : a.2 ≠ b.2
  · rw [if_pos (Ne.symm hne)]
    rfl
  · rw [if_neg hne] at h
    rw [if_neg fun hba => hne (Ne.symm hba)]
    have heq : a.2 = b.2 := not_not.1 hne
    by_cases hz : a.2 = 0
    · rw [if_pos hz] at h
      cases h
    · rw [if_neg hz] at h
      rw [if_neg (heq ▸ hz)]
      obtain ⟨ta, hta, h⟩ := of_except_bind_ok h
      obtain ⟨sa, hsa, h⟩ := of_except_bind_ok h
      obtain ⟨tb, htb, h⟩ := of_except_bind_ok h
      obtain ⟨sb, hsb, h⟩ := of_except_bind_ok h
      have hsizes : sa ≠ sb := of_decide_eq_true (Except.ok.inj h)
      rw [hta, htb]
      show (do
        let size ← tb.elementType.size
        let other ← ta.elementType.size
        return decide (size ≠ other)) = Except.ok true
      rw [hsa, hsb]
      exact congrArg Except.ok (decide_eq_true (Ne.symm hsizes))

/-- Some loop steps the two buffers in ways that must be kept apart. -/
def Clash (k : Kernel) (a b : ExprId) : Prop :=
  ∃ e ∈ k.ofKind .loopEnd, ∃ steps, k.steppedBuffers e = .ok steps ∧
    ∃ p q, (a, p) ∈ steps ∧ (b, q) ∈ steps ∧ k.conflicting (a, p) (b, q) = .ok true

/-- Looking at loops keeps the conflicts found so far and adds those of each loop. -/
theorem of_foldlM_connectAll_ok {es : List ExprId}
    (h : es.foldlM (fun g e => do k.connectAll (← k.steppedBuffers e) g) g = .ok g') :
    g'.Extends g ∧ ∀ e ∈ es, ∀ steps, k.steppedBuffers e = .ok steps →
      steps.Pairwise fun a b => k.conflicting a b = .ok true → Kept g' a.1 b.1 := by
  induction es generalizing g with
  | nil =>
    cases h
    exact ⟨.refl _, by simp⟩
  | cons e rest ih =>
    obtain ⟨g1, hstep, hrest⟩ := of_except_bind_ok h
    obtain ⟨steps, hsteps, hstep⟩ := of_except_bind_ok hstep
    obtain ⟨hgrow1, hpairs⟩ := of_connectAll_ok hstep
    obtain ⟨hgrow, hkept⟩ := ih hrest
    refine ⟨hgrow.trans hgrow1, fun e' he' steps' hsteps' => ?_⟩
    rcases mem_cons.1 he' with rfl | he'
    · rw [hsteps] at hsteps'
      cases hsteps'
      exact hpairs.imp fun hkeep hconf => (hkeep hconf).extends hgrow
    · exact hkept e' he' steps' hsteps'

/-- The conflict graph of a kernel holds every clash. -/
theorem kept_of_clash (h : k.conflicts = .ok g) (hne : a ≠ b) (hclash : k.Clash a b) :
    Kept g a b := by
  obtain ⟨-, hkept⟩ := of_foldlM_connectAll_ok h
  obtain ⟨e, he, steps, hsteps, p, q, hp, hq, hconf⟩ := hclash
  have hpairs := hkept e he steps hsteps
  have hsymm : Std.Symm fun a b : ExprId × Amount => k.conflicting a b = .ok true → Kept g a.1 b.1 :=
    ⟨fun a b hab hba => (hab (conflicting_symm hba)).symm⟩
  exact hpairs.forall hp hq (fun heq => hne (congrArg Prod.fst heq)) hconf

end Kernel

/-! ## What a kernel is without its placement -/

/-- The expression without color and place. -/
def Expr.unplaced (x : Expr) : Expr := { x with bufferId := 0, bufferOffset := 0 }

namespace Kernel

/-- The kernel without colors, places and scratch memory. -/
def unplaced (k : Kernel) : Kernel := { k with exprs := k.exprs.map Expr.unplaced, scratchSize := 0 }

variable (k : Kernel)

theorem expr_unplaced (e : ExprId) : k.unplaced.expr e = (k.expr e).unplaced := by
  simp only [unplaced, expr, Array.getD_eq_getD_getElem?, Array.getElem?_map]
  cases k.exprs[e]? <;> rfl

theorem kind_unplaced (e : ExprId) : (k.unplaced.expr e).kind = (k.expr e).kind := by
  rw [expr_unplaced]
  rfl

theorem ofKind_unplaced (kind : OpKind) : k.unplaced.ofKind kind = k.ofKind kind := by
  simp only [ofKind, kind_unplaced]
  rfl

theorem loopEndOf_unplaced (b : ExprId) : k.unplaced.loopEndOf b = k.loopEndOf b := by
  unfold loopEndOf
  simp only [kind_unplaced]
  rw [expr_unplaced]
  rfl

theorem loopBeginOf_unplaced (e : ExprId) : k.unplaced.loopBeginOf e = k.loopBeginOf e := by
  unfold loopBeginOf
  simp only [kind_unplaced]
  rw [expr_unplaced]
  rfl

theorem body_unplaced (b : ExprId) (e : Option ExprId) : k.unplaced.body b e = k.body b e := by
  have hbody : ∀ (stop : Option ExprId) (steps : Nat) (walk : List ExprId),
      k.unplaced.bodyOn stop steps walk = k.bodyOn stop steps walk := by
    intro stop steps
    induction steps with
    | zero => intro walk; cases walk <;> rfl
    | succ steps ih =>
      intro walk
      cases walk with
      | nil => rfl
      | cons x rest =>
        simp only [bodyOn, kind_unplaced, loopEndOf_unplaced, ih]
        rfl
  exact hbody e _ _

theorem producer?_unplaced (t : TensorId) :
    k.unplaced.producer? t = (k.producer? t).map Expr.unplaced := by
  simp only [producer?, expr_unplaced, Option.map_map]
  rfl

theorem entryBuffer_unplaced (x : Expr) (l : LoopParams) :
    k.unplaced.entryBuffer x.unplaced l = k.entryBuffer x l := by
  funext i
  refine bind_congr fun t => ?_
  rw [producer?_unplaced]
  cases k.producer? t.id <;> rfl

theorem exitBuffer_unplaced (x : Expr) (l : LoopParams) :
    k.unplaced.exitBuffer x.unplaced l = k.exitBuffer x l := by
  funext i
  unfold exitBuffer
  simp only [kind_unplaced]
  rfl

theorem steppedBuffers_unplaced (e : ExprId) : k.unplaced.steppedBuffers e = k.steppedBuffers e := by
  unfold steppedBuffers
  simp only [expr_unplaced, entryBuffer_unplaced, exitBuffer_unplaced,
    loopBeginOf_unplaced, body_unplaced]
  rfl

theorem conflicting_unplaced (a b : ExprId × Amount) :
    k.unplaced.conflicting a b = k.conflicting a b := by
  unfold conflicting
  rw [expr_unplaced, expr_unplaced]
  rfl

theorem clash_unplaced (a b : ExprId) : k.unplaced.Clash a b ↔ k.Clash a b := by
  simp only [Clash, ofKind_unplaced, steppedBuffers_unplaced, conflicting_unplaced]

variable {k}

/-- Changing colors and places does not show without them. -/
theorem unplaced_modify {e : ExprId} {f : Expr → Expr} (hf : ∀ x, (f x).unplaced = x.unplaced) :
    ({ k with exprs := k.exprs.modify e f } : Kernel).unplaced = k.unplaced := by
  have hexprs : (k.exprs.modify e f).map Expr.unplaced = k.exprs.map Expr.unplaced := by
    ext1
    · simp
    · simp [Array.getElem_modify, apply_ite Expr.unplaced, hf]
  simp only [unplaced, hexprs]

theorem unplaced_modifyEach {key : α → ExprId} {f : α → Expr → Expr}
    (hf : ∀ a x, (f a x).unplaced = x.unplaced)
    (xs : List α) : (k.modifyEach key f xs).unplaced = k.unplaced := by
  induction xs generalizing k with
  | nil => rfl
  | cons a xs ih => exact ih.trans (unplaced_modify (hf a))

end Kernel

/-! ## The pass -/

namespace Buffers

open Kernel

variable {k k' : Kernel}

/-- The conflict graph of a kernel is over its buffers. -/
theorem buffers_of_conflicts (h : k.conflicts = .ok g) :
    g.buffers = k.ofKind .buffer ∧ g.Formed := by
  obtain ⟨hgrow, -⟩ := of_foldlM_connectAll_ok h
  exact ⟨hgrow.buffers, hgrow.formed (ConflictGraph.formed_ofBuffers _)⟩

/-- Buffers that clash stand at places with different colors. -/
theorem color_ne_of_kept (h : Kept g a b) (hne : a ≠ b) (hg : g.Formed) :
    ∃ i j : Nat, ∃ c d : Nat, g.buffers[i]? = some a ∧ g.color[i]? = some c ∧
      g.buffers[j]? = some b ∧ g.color[j]? = some d ∧ c ≠ d := by
  obtain ⟨i, j, hi, hj, hij, hji⟩ := h
  obtain ⟨hi', -⟩ := List.getElem?_eq_some_iff.1 hi
  obtain ⟨hj', -⟩ := List.getElem?_eq_some_iff.1 hj
  rw [← hg.length] at hi' hj'
  have hcolors : g.color[i]? ≠ g.color[j]? := by
    rcases Nat.lt_trichotomy i j with hlt | rfl | hlt
    · exact ConflictGraph.color_ne_of_adjacent hg hij hlt hj'
    · exact absurd (Option.some.inj (hi.symm.trans hj)) hne
    · exact (ConflictGraph.color_ne_of_adjacent hg hji hlt hi').symm
  rw [← ConflictGraph.length_color hg] at hi' hj'
  rw [getElem?_eq_getElem hi', getElem?_eq_getElem hj'] at hcolors
  exact ⟨i, j, g.color[i], g.color[j], hi, getElem?_eq_getElem hi', hj,
    getElem?_eq_getElem hj', fun heq => hcolors (congrArg some heq)⟩

/-- Coloring changes nothing but colors, and buffers that clash get different ones. -/
theorem of_color_ok {changed : Bool} (hnodup : k.order.Nodup) (h : color k = .ok changed k') :
    k'.unplaced = k.unplaced ∧ ∀ a ∈ k.ofKind .buffer, ∀ b ∈ k.ofKind .buffer, a ≠ b → k.Clash a b →
      (k'.expr a).bufferId ≠ (k'.expr b).bufferId := by
  unfold color at h
  rw [get_bind_run] at h
  by_cases hempty : (k.ofKind .buffer).isEmpty
  · simp only [hempty] at h
    cases h
    rw [List.isEmpty_iff.1 hempty]
    exact ⟨rfl, by simp⟩
  · simp only [hempty] at h
    obtain ⟨g, k1, hg, h⟩ := of_bind_run_ok h
    obtain ⟨hg, rfl⟩ := Edit.of_ask_run_ok hg
    obtain ⟨hbuffers, hformed⟩ := buffers_of_conflicts hg
    let recolor : ExprId × Nat → Expr → Expr := fun p x => { x with bufferId := p.2 }
    let pairs := (k1.ofKind .buffer).zip g.color
    have hrun : pairs.forM (fun p => Edit.modifyExpr p.1 (recolor p)) k1 =
        .ok ⟨⟩ (k1.modifyEach Prod.fst recolor pairs) := Edit.forM_modifyExpr_run Prod.fst recolor pairs k1
    rw [bind_run_ok hrun] at h
    cases h
    have hcolored : ∀ p x, (recolor p x).unplaced = x.unplaced := fun _ _ => rfl
    refine ⟨unplaced_modifyEach hcolored pairs, fun a ha b hb hne hclash => ?_⟩
    have hkeys : (pairs.map Prod.fst).Nodup := by
      rw [map_fst_zip (Nat.le_of_eq (by rw [ConflictGraph.length_color hformed, hformed.length, hbuffers]))]
      exact hnodup.filter _
    have hcolor : ∀ {b : ExprId} {i c : Nat}, b ∈ k1.ofKind .buffer → g.buffers[i]? = some b →
        g.color[i]? = some c → ((k1.modifyEach Prod.fst recolor pairs).expr b).bufferId = c := by
      intro b i c hb hi hc
      have hmem : (b, c) ∈ pairs := by
        rw [mem_iff_getElem?]
        exact ⟨i, getElem?_zip_eq_some.2 ⟨hbuffers ▸ hi, hc⟩⟩
      have hkind : (k1.expr b).kind ≠ .parameter := by
        rw [of_decide_eq_true (mem_filter.1 hb).2]
        exact OpKind.noConfusion
      rw [expr_modifyEach_of_mem Prod.fst recolor k1 hkeys hmem (lt_size_of_kind_ne hkind)]
    obtain ⟨i, j, c, d, hi, hc, hj, hd, hcd⟩ :=
      color_ne_of_kept (kept_of_clash hg hne hclash) hne hformed
    rw [hcolor ha hi hc, hcolor hb hj hd]
    exact fun heq => hcd (Int.natCast_inj.1 heq)

end Buffers

end KernelLoops
