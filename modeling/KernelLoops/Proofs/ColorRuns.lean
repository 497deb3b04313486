import Mathlib.Data.Finset.Card
import KernelLoops.Proofs.Coloring

set_option autoImplicit false

/-! # Colors come in runs

Buffers are colored in order, and a color that was left is never used again. So every color is a run
of consecutive buffers, and a new one is opened only where a conflict forces it: each color above
the first comes with a conflict between a buffer of the color before and a later one. These
conflicts lie one behind the other, so no proper coloring by runs does with fewer colors. -/

namespace KernelLoops

open List

variable {pairs : List (Nat × Nat)} {other : List Nat}

/-! ## Counting colors -/

theorem numColors_eq_card (colors : List Nat) : numColors colors = colors.toFinset.card := by
  have hset : colors.eraseDups.toFinset = colors.toFinset := by
    ext c
    simp [mem_eraseDups]
  rw [numColors, ← hset, toFinset_card_of_nodup (nodup_eraseDups colors)]

/-- There are as many colors as buffers exactly when no color is used twice. -/
theorem numColors_eq_length_iff {colors : List Nat} : numColors colors = colors.length ↔
    colors.Nodup := by
  rw [numColors_eq_card]
  exact Multiset.toFinset_card_eq_card_iff_nodup (m := (colors : Multiset Nat))

namespace ConflictGraph

variable {g g' : ConflictGraph} {colors : List Nat} {c d i j n : Nat}

/-! ## Graphs made of conflicts -/

/-- Puts pairs of buffers in conflict, one after the other. -/
def connectEach (g : ConflictGraph) (pairs : List (Nat × Nat)) : Except Failure ConflictGraph :=
  pairs.foldlM (fun g p => g.connect p.1 p.2) g

theorem adjacent_eq_ok_true : g.adjacent i j = .ok true ↔ g.Adjacent i j := by
  unfold adjacent Adjacent
  constructor
  · intro h
    obtain ⟨row, hrow, h⟩ := of_except_bind_ok h
    rw [fetch_eq_ok_iff] at hrow
    exact ⟨row, hrow, contains_iff_mem.1 (Except.ok.inj h)⟩
  · rintro ⟨row, hrow, hmem⟩
    rw [except_bind_ok (fetch_eq_ok_iff.2 hrow), contains_iff_mem.2 hmem]
    rfl

/-- The rows are those of a graph over `n` buffers with these conflicts. -/
structure Connects (g : ConflictGraph) (n : Nat) (pairs : List (Nat × Nat)) : Prop where
  formed : g.Formed
  length : g.rows.length = n
  adjacent : ∀ {i j}, g.Adjacent i j ↔ i < n ∧ (i = j ∨ (i, j) ∈ pairs ∨ (j, i) ∈ pairs)

theorem connects_ofBuffers (buffers : List ExprId) :
    (ofBuffers buffers).Connects buffers.length [] where
  formed := formed_ofBuffers buffers
  length := by simp [ofBuffers]
  adjacent := by
    intro i j
    constructor
    · rintro ⟨row, hrow, hmem⟩
      rw [ofBuffers, getElem?_map] at hrow
      obtain ⟨i', hi', rfl⟩ := Option.map_eq_some_iff.1 hrow
      obtain ⟨hlt, rfl⟩ := List.getElem?_eq_some_iff.1 hi'
      simp only [length_range, getElem_range, mem_singleton] at hlt hmem
      exact ⟨hlt, .inl (Int.ofNat.inj hmem).symm⟩
    · rintro ⟨hi, rfl | hfalse | hfalse⟩
      · exact ⟨[(i : Int)], by simp [ofBuffers, hi], mem_singleton_self _⟩
      · cases hfalse
      · cases hfalse

/-- Putting `j` into row `i` does that and no more. -/
theorem exists_insertAt {rows : List (List Int)} (hi : i < rows.length) (j : Nat) :
    ∃ rows', insertAt rows i j = .ok rows' ∧ rows'.length = rows.length ∧
      ∀ m l : Nat, (∃ row, rows'[m]? = some row ∧ (l : Int) ∈ row) ↔
        (∃ row, rows[m]? = some row ∧ (l : Int) ∈ row) ∨ (m = i ∧ l = j) := by
  have hrow : rows[i]? = some rows[i] := getElem?_eq_getElem hi
  refine ⟨rows.set i (insertInto rows[i] j), ?_, length_set, fun m l => ?_⟩
  · rw [insertAt, except_bind_ok (fetch_eq_ok_iff.2 hrow), Int.toNat_natCast]
    rfl
  · by_cases hm : m = i
    · subst hm
      rw [getElem?_set_self hi, hrow]
      simp only [Option.some.injEq, exists_eq_left', mem_insertInto, Int.natCast_inj, true_and]
    · simp [getElem?_set_ne (Ne.symm hm), hm]

/-- Two buffers of a graph can be put in conflict. -/
theorem Connects.connect (h : g.Connects n pairs) (hi : i < n) (hj : j < n) :
    ∃ g', g.connect i j = .ok g' ∧ g'.Connects n (pairs ++ [(i, j)]) := by
  obtain ⟨rows, hrows, hlen, hmem⟩ := exists_insertAt (h.length.symm ▸ hi) j
  obtain ⟨rows', hrows', hlen', hmem'⟩ := exists_insertAt (hlen.trans h.length ▸ hj) i
  have hconnect : g.connect i j = .ok { g with rows := rows' } := by
    rw [ConflictGraph.connect, except_bind_ok hrows, except_bind_ok hrows']
    rfl
  obtain ⟨hgrow, -⟩ := of_connect_ok hconnect
  refine ⟨_, hconnect, hgrow.formed h.formed, hlen'.trans (hlen.trans h.length), fun {m l} => ?_⟩
  · rw [Adjacent, hmem', hmem]
    have hold := h.adjacent (i := m) (j := l)
    rw [Adjacent] at hold
    rw [hold]
    simp only [mem_append, mem_singleton, Prod.mk.injEq]
    constructor
    · rintro ((⟨hm, heq | hml | hlm⟩ | ⟨rfl, rfl⟩) | ⟨rfl, rfl⟩)
      · exact ⟨hm, .inl heq⟩
      · exact ⟨hm, .inr (.inl (.inl hml))⟩
      · exact ⟨hm, .inr (.inr (.inl hlm))⟩
      · exact ⟨hi, .inr (.inl (.inr ⟨rfl, rfl⟩))⟩
      · exact ⟨hj, .inr (.inr (.inr ⟨rfl, rfl⟩))⟩
    · rintro ⟨hm, heq | (hml | hml) | (hlm | hlm)⟩
      · exact .inl (.inl ⟨hm, .inl heq⟩)
      · exact .inl (.inl ⟨hm, .inr (.inl hml)⟩)
      · exact .inl (.inr hml)
      · exact .inl (.inl ⟨hm, .inr (.inr hlm)⟩)
      · exact .inr hlm.symm

/-- Any conflicts between buffers of a graph can be made. -/
theorem Connects.connectEach {more : List (Nat × Nat)} (h : g.Connects n pairs)
    (hmore : ∀ p ∈ more, p.1 < n ∧ p.2 < n) : ∃ g', g.connectEach more = .ok g' ∧ g'.Connects n (pairs ++ more) := by
  induction more generalizing g pairs with
  | nil => exact ⟨g, rfl, by rwa [append_nil]⟩
  | cons p rest ih =>
    obtain ⟨hi, hj⟩ := hmore p mem_cons_self
    obtain ⟨g1, hconnect, h1⟩ := h.connect hi hj
    obtain ⟨g', hrest, h'⟩ := ih h1 fun q hq => hmore q (mem_cons_of_mem p hq)
    refine ⟨g', ?_, by rwa [append_assoc] at h'⟩
    rw [ConflictGraph.connectEach, foldlM_cons, except_bind_ok hconnect]
    exact hrest

/-- A conflict is one of both buffers. -/
theorem Connects.symm (h : g.Connects n pairs) (hpairs : ∀ p ∈ pairs, p.1 < n ∧ p.2 < n)
    (hij : g.Adjacent i j) :
    g.Adjacent j i := by
  rw [h.adjacent] at hij ⊢
  obtain ⟨hi, rfl | hp | hp⟩ := hij
  · exact ⟨hi, .inl rfl⟩
  · exact ⟨(hpairs _ hp).2, .inr (.inr hp)⟩
  · exact ⟨(hpairs _ hp).1, .inr (.inl hp)⟩

/-! ## The rule -/

/-- The next buffer is in conflict with one of this color. -/
def Blocked (g : ConflictGraph) (colors : List Nat) (c : Nat) : Prop :=
  ∃ i, colors[i]? = some c ∧ g.Adjacent i colors.length

/-- Colors handed out in order: a buffer keeps the last color unless a conflict blocks that. -/
inductive Greedy (g : ConflictGraph) : List Nat → Prop
  | none : Greedy g []
  | start : Greedy g [0]
  | keep {colors : List Nat} {c : Nat} (h : Greedy g colors) (hlast : colors.getLast? = some c)
      (hfree : ¬g.Blocked colors c) : Greedy g (colors ++ [c])
  | leave {colors : List Nat} {c : Nat} (h : Greedy g colors) (hlast : colors.getLast? = some c)
      (hblocked : g.Blocked colors c) : Greedy g (colors ++ [c + 1])

/-- The buffer behind `j` follows one of color `c` with color `d`: it keeps the color, or opens a
    new one because a conflict with a buffer of that color forces it. -/
def Follows (g : ConflictGraph) (colors : List Nat) (j c d : Nat) : Prop :=
  (d = c ∧ ∀ i ≤ j, colors[i]? = some c → ¬g.Adjacent i (j + 1)) ∨
    (d = c + 1 ∧ ∃ i ≤ j, colors[i]? = some c ∧ g.Adjacent i (j + 1))

/-- Later colors do not matter. -/
theorem follows_append (hj : j < colors.length) (more : List Nat) :
    g.Follows (colors ++ more) j c d ↔ g.Follows colors j c d := by
  have hsame : ∀ i ≤ j, (colors ++ more)[i]? = colors[i]? := fun i hi =>
    getElem?_append_left (Nat.lt_of_le_of_lt hi hj)
  unfold Follows
  refine or_congr (and_congr_right fun _ => forall₂_congr fun i hi => ?_) (and_congr_right fun _ => ?_)
  · rw [hsame i hi]
  · refine exists_congr fun i => and_congr_right fun hi => ?_
    rw [hsame i hi]

/-- The last buffer follows the one before as the rule says. -/
theorem follows_last (hj : j + 1 = colors.length)
    (hd : (d = c ∧ ¬g.Blocked colors c) ∨ (d = c + 1 ∧ g.Blocked colors c)) : g.Follows colors j c d := by
  refine hd.imp (And.imp_right fun hfree i _ hci hadj => hfree ⟨i, hci, hj ▸ hadj⟩) (And.imp_right ?_)
  rintro ⟨i, hci, hadj⟩
  obtain ⟨hi, -⟩ := List.getElem?_eq_some_iff.1 hci
  exact ⟨i, by omega, hci, hj.symm ▸ hadj⟩

namespace Greedy

variable (h : g.Greedy colors)

include h

/-- No color is above the last one. -/
theorem le_last (hlast : colors.getLast? = some c) (hd : d ∈ colors) : d ≤ c := by
  induction h generalizing c with
  | none => cases hd
  | start => simp_all
  | keep h hlast' hfree ih =>
    obtain rfl : _ = c := by simpa using hlast
    rcases mem_append.1 hd with hd | hd
    · exact ih hlast' hd
    · exact (mem_singleton.1 hd).le
  | leave h hlast' hblocked ih =>
    obtain rfl : _ = c := by simpa using hlast
    rcases mem_append.1 hd with hd | hd
    · exact (ih hlast' hd).trans (Nat.le_succ _)
    · exact (mem_singleton.1 hd).le

/-- The first color is the first one handed out. -/
theorem head (hc : colors[0]? = some c) : c = 0 := by
  induction h with
  | none => cases hc
  | start => exact (Option.some.inj hc).symm
  | keep h hlast hfree ih | leave h hlast hblocked ih =>
    have hlt := length_pos_of_mem (mem_of_getLast? hlast)
    exact ih (getElem?_append_left hlt ▸ hc)

/-- Every two consecutive buffers are colored as the rule says. -/
theorem next (hc : colors[j]? = some c) (hd : colors[j + 1]? = some d) : g.Follows colors j c d := by
  -- Either both buffers were there before the last color was handed out, or that was done just now.
  have hstep : ∀ {colors : List Nat} {last x : Nat}, colors.getLast? = some last →
      ((x = last ∧ ¬g.Blocked colors last) ∨ (x = last + 1 ∧ g.Blocked colors last)) →
      (colors[j]? = some c → colors[j + 1]? = some d → g.Follows colors j c d) →
      (colors ++ [x])[j]? = some c → (colors ++ [x])[j + 1]? = some d → g.Follows (colors ++ [x]) j c d := by
    intro colors last x hlast hx ih hc hd
    obtain ⟨hlt, -⟩ := List.getElem?_eq_some_iff.1 hd
    rw [length_append, length_singleton] at hlt
    have hj : j < colors.length := by omega
    rw [follows_append hj]
    rw [getElem?_append_left hj] at hc
    rcases Nat.lt_or_ge (j + 1) colors.length with hlt' | hge
    · exact ih hc (getElem?_append_left hlt' ▸ hd)
    · have hlen : j + 1 = colors.length := by omega
      rw [hlen, getElem?_concat_length, Option.some_inj] at hd
      obtain rfl : last = c := by
        rw [getLast?_eq_getElem?, ← hlen, Nat.add_sub_cancel, hc] at hlast
        exact (Option.some.inj hlast).symm
      exact follows_last hlen (hd ▸ hx)
  induction h with
  | none => cases hd
  | start => cases hd
  | keep h hlast hfree ih => exact hstep hlast (.inl ⟨rfl, hfree⟩) ih hc hd
  | leave h hlast hblocked ih => exact hstep hlast (.inr ⟨rfl, hblocked⟩) ih hc hd

/-- Colors never go down. -/
theorem mono (hij : i ≤ j) (hc : colors[i]? = some c) (hd : colors[j]? = some d) : c ≤ d := by
  induction j, hij using Nat.le_induction generalizing d with
  | base =>
    rw [hc, Option.some_inj] at hd
    exact hd.le
  | succ j hij ih =>
    obtain ⟨hlt, -⟩ := List.getElem?_eq_some_iff.1 hd
    have hbefore : colors[j]? = some colors[j] := getElem?_eq_getElem (by omega)
    have hle := ih hbefore
    rcases h.next hbefore hd with ⟨rfl, -⟩ | ⟨rfl, -⟩ <;> omega

/-- A color above the first one has been forced by a conflict with a buffer of the color before. -/
theorem forced (hj : colors[j]? = some (c + 1)) : ∃ i s, i < s ∧ s ≤ j ∧ colors[i]? = some c ∧
    g.Adjacent i s := by
  induction j with
  | zero => cases h.head hj
  | succ j ih =>
    obtain ⟨hlt, -⟩ := List.getElem?_eq_some_iff.1 hj
    have hbefore : colors[j]? = some colors[j] := getElem?_eq_getElem (by omega)
    rcases h.next hbefore hj with ⟨heq, -⟩ | ⟨heq, i, hi, hci, hadj⟩
    · obtain ⟨i, s, his, hsj, hi⟩ := ih (heq ▸ hbefore)
      exact ⟨i, s, his, hsj.trans (Nat.le_succ j), hi⟩
    · exact ⟨i, j + 1, Nat.lt_succ_of_le hi, le_rfl, Nat.succ.inj heq ▸ hci, hadj⟩

end Greedy

/-- Handing out colors goes by the rule. -/
theorem greedy_colorFrom {group : List Int} {done rest : List (List Int)}
    (hrows : g.rows = done ++ rest)
    (hlen : colors.length = done.length) (hlast : colors.getLast? = some c)
    (hgroup : ∀ x : Nat, (x : Int) ∈ group ↔ ∃ i, colors[i]? = some c ∧ g.Adjacent i x) (h : g.Greedy colors) :
    g.Greedy (colors ++ colorFrom c group colors.length rest) := by
  induction rest generalizing colors done c group with
  | nil => rwa [colorFrom, append_nil]
  | cons row rest ih =>
    have hrow : ∀ x : Nat, g.Adjacent colors.length x ↔ (x : Int) ∈ row := by
      intro x
      rw [Adjacent, hrows, hlen, getElem?_append_right le_rfl, Nat.sub_self]
      simp
    have hrows' : g.rows = (done ++ [row]) ++ rest := by rw [hrows, append_assoc, singleton_append]
    have hlen' : ∀ x : Nat, (colors ++ [x]).length = (done ++ [row]).length := by simp [hlen]
    have hlast' : ∀ x : Nat, (colors ++ [x]).getLast? = some x := by simp
    -- The buffers of a color, when one more is colored.
    have hcolor : ∀ {i x y : Nat}, (colors ++ [x])[i]? = some y ↔ colors[i]? = some y ∨ i = colors.length ∧ y = x := by
      intro i x y
      rw [getElem?_append]
      split
      · next hi => simp [hi.ne]
      · next hi => simp [getElem?_eq_none (Nat.le_of_not_lt hi), getElem?_singleton, eq_comm]; omega
    have hblocked : g.Blocked colors c ↔ ((colors.length : Nat) : Int) ∈ group := (hgroup colors.length).symm
    rw [colorFrom]
    split
    · next hc =>
        have hgroup' : ∀ x : Nat, (x : Int) ∈ row ↔ ∃ i, (colors ++ [c + 1])[i]? = some (c + 1) ∧ g.Adjacent i x := by
          intro x
          constructor
          · intro hx
            exact ⟨colors.length, hcolor.2 (.inr ⟨rfl, rfl⟩), (hrow x).2 hx⟩
          · rintro ⟨i, hi, hadj⟩
            rcases hcolor.1 hi with hi | ⟨rfl, -⟩
            · exact absurd (h.le_last hlast (mem_of_getElem? hi)) (Nat.not_succ_le_self c)
            · exact (hrow x).1 hadj
        have hnext := ih hrows' (hlen' _) (hlast' _) hgroup' (h.leave hlast (hblocked.2 (contains_iff_mem.1 hc)))
        rwa [length_append, append_assoc] at hnext
    · next hc =>
        have hgroup' : ∀ x : Nat, (x : Int) ∈ union group row ↔ ∃ i, (colors ++ [c])[i]? = some c ∧ g.Adjacent i x := by
          intro x
          rw [mem_union, hgroup, ← hrow]
          constructor
          · rintro (⟨i, hi, hadj⟩ | hadj)
            · exact ⟨i, hcolor.2 (.inl hi), hadj⟩
            · exact ⟨_, hcolor.2 (.inr ⟨rfl, rfl⟩), hadj⟩
          · rintro ⟨i, hi, hadj⟩
            rcases hcolor.1 hi with hi | ⟨rfl, -⟩
            · exact .inl ⟨i, hi, hadj⟩
            · exact .inr hadj
        have hfree : ¬g.Blocked colors c := fun hb => hc (contains_iff_mem.2 (hblocked.1 hb))
        have hnext := ih hrows' (hlen' _) (hlast' _) hgroup' (h.keep hlast hfree)
        rwa [length_append, append_assoc] at hnext

/-- The colors of a graph go by the rule. -/
theorem greedy_color (hg : g.Formed) : g.Greedy g.color := by
  cases hrows : g.rows with
  | nil =>
    rw [color_eq_runs hg, hrows]
    exact .none
  | cons row rest =>
  have hcolor : g.color = [0] ++ colorFrom 0 row [0].length rest := by
    rw [color_eq_runs hg, hrows]
    rfl
  have hgroup : ∀ x : Nat, (x : Int) ∈ row ↔ ∃ i, [0][i]? = some 0 ∧ g.Adjacent i x := by
    intro x
    constructor
    · intro hx
      exact ⟨0, rfl, row, by rw [hrows]; rfl, hx⟩
    · rintro ⟨i, hi, row', hrow', hx⟩
      obtain ⟨hlt, -⟩ := List.getElem?_eq_some_iff.1 hi
      obtain rfl : i = 0 := Nat.lt_one_iff.1 hlt
      rw [hrows] at hrow'
      cases hrow'
      exact hx
  rw [hcolor]
  exact greedy_colorFrom (show g.rows = [row] ++ rest from hrows) rfl rfl hgroup .start

/-! ## Colorings by runs -/

/-- Buffers in conflict have different colors. -/
def Proper (g : ConflictGraph) (colors : List Nat) : Prop :=
  ∀ i j : Nat, i ≠ j → g.adjacent i j = .ok true → colors[i]? ≠ colors[j]?

/-- The buffers of a color are consecutive. -/
def InRuns (colors : List Nat) : Prop :=
  ∀ i j l c : Nat, i ≤ j → j ≤ l → colors[i]? = some c → colors[l]? = some c → colors[j]? = some c

theorem Greedy.inRuns (h : g.Greedy colors) : InRuns colors := by
  intro i j l c hij hjl hi hl
  obtain ⟨hlt, -⟩ := List.getElem?_eq_some_iff.1 hl
  have hj : colors[j]? = some colors[j] := getElem?_eq_getElem (by omega)
  rw [hj, Nat.le_antisymm (h.mono hjl hj hl) (h.mono hij hi hj)]

/-- The colors of the buffers up to `j`. -/
def colorsUpTo (colors : List Nat) (j : Nat) : Finset Nat := (colors.take (j + 1)).toFinset

theorem mem_colorsUpTo : c ∈ colorsUpTo colors j ↔ ∃ i ≤ j, colors[i]? = some c := by
  rw [colorsUpTo, mem_toFinset, mem_iff_getElem?]
  refine exists_congr fun i => ?_
  rw [getElem?_take]
  split
  · next h => simp [Nat.le_of_lt_succ h]
  · next h => simp [show ¬i ≤ j by omega]

theorem colorsUpTo_mono (hij : i ≤ j) : colorsUpTo colors i ⊆ colorsUpTo colors j := by
  intro c hc
  obtain ⟨p, hp, hcolor⟩ := mem_colorsUpTo.1 hc
  exact mem_colorsUpTo.2 ⟨p, hp.trans hij, hcolor⟩

/-- A proper coloring by runs uses a new color for a buffer in conflict with an earlier one. -/
theorem card_colorsUpTo_lt (hproper : g.Proper colors) (hruns : InRuns colors) (hij : i < j)
    (hj : j < colors.length) (hadj : g.Adjacent i j) : (colorsUpTo colors i).card < (colorsUpTo colors j).card := by
  apply Finset.card_lt_card
  refine ⟨colorsUpTo_mono hij.le, fun hsub => ?_⟩
  have hcolor : colors[j]? = some colors[j] := getElem?_eq_getElem hj
  obtain ⟨p, hp, hold⟩ := mem_colorsUpTo.1 (hsub (mem_colorsUpTo.2 ⟨j, le_rfl, hcolor⟩))
  -- The color was used before `i`, so the run goes over `i`, against the conflict.
  exact hproper i j hij.ne (adjacent_eq_ok_true.2 hadj) ((hruns p i j _ hp hij.le hold hcolor).trans hcolor.symm)

/-- Up to each buffer, a proper coloring by runs needs more colors than the number of the color
    handed out. -/
theorem Greedy.lt_card_colorsUpTo (h : g.Greedy colors) (hlen : other.length = colors.length)
    (hproper : g.Proper other) (hruns : InRuns other) (hj : colors[j]? = some c) : c < (colorsUpTo other j).card := by
  induction c generalizing j with
  | zero =>
    obtain ⟨hlt, -⟩ := List.getElem?_eq_some_iff.1 hj
    exact Finset.card_pos.2 ⟨other[j], mem_colorsUpTo.2 ⟨j, le_rfl, getElem?_eq_getElem (hlen ▸ hlt)⟩⟩
  | succ c ih =>
    obtain ⟨hlt, -⟩ := List.getElem?_eq_some_iff.1 hj
    obtain ⟨i, s, his, hsj, hi, hadj⟩ := h.forced hj
    calc c + 1 ≤ (colorsUpTo other i).card := ih hi
      _ < (colorsUpTo other s).card := card_colorsUpTo_lt hproper hruns his (by omega) hadj
      _ ≤ (colorsUpTo other j).card := Finset.card_le_card (colorsUpTo_mono hsj)

/-- No proper coloring by runs does with fewer colors. -/
theorem Greedy.numColors_le (h : g.Greedy colors) (hlen : other.length = colors.length)
    (hproper : g.Proper other)
    (hruns : InRuns other) : numColors colors ≤ numColors other := by
  cases hlast : colors.getLast? with
  | none =>
    rw [getLast?_eq_none_iff.1 hlast]
    exact Nat.zero_le _
  | some last =>
  rw [numColors_eq_card, numColors_eq_card]
  calc colors.toFinset.card ≤ (Finset.range (last + 1)).card := Finset.card_le_card fun c hc =>
        Finset.mem_range.2 (Nat.lt_succ_of_le (h.le_last hlast (mem_toFinset.1 hc)))
    _ = last + 1 := Finset.card_range _
    _ ≤ (colorsUpTo other (colors.length - 1)).card := h.lt_card_colorsUpTo hlen hproper hruns (by
        rw [← getLast?_eq_getElem?, hlast])
    _ ≤ other.toFinset.card := Finset.card_le_card fun c hc =>
        mem_toFinset.2 (mem_of_mem_take (mem_toFinset.1 hc))

/-- Every buffer gets a color of its own exactly when every two consecutive ones are in conflict. -/
theorem Greedy.numColors_eq_length_iff (h : g.Greedy colors) :
    numColors colors = colors.length ↔ ∀ j, j + 1 < colors.length → g.Adjacent j (j + 1) := by
  rw [KernelLoops.numColors_eq_length_iff]
  constructor
  · intro hnodup j hj
    have hc : colors[j]? = some colors[j] := getElem?_eq_getElem (by omega)
    have hd : colors[j + 1]? = some colors[j + 1] := getElem?_eq_getElem hj
    rcases h.next hc hd with ⟨heq, -⟩ | ⟨-, i, hi, hci, hadj⟩
    · exact absurd ((hnodup.getElem_inj_iff).1 heq) (Nat.succ_ne_self j)
    · obtain rfl : i = j := (getElem?_inj (by omega) hnodup).1 (hci.trans hc.symm)
      exact hadj
  · intro hadj
    -- The colors go up at every step.
    refine (isChain_iff_pairwise.1 (isChain_iff_getElem.2 fun j hj => ?_)).imp fun hlt => Nat.ne_of_lt hlt
    have hc : colors[j]? = some colors[j] := getElem?_eq_getElem (by omega)
    have hd : colors[j + 1]? = some colors[j + 1] := getElem?_eq_getElem hj
    rcases h.next hc hd with ⟨-, hno⟩ | ⟨heq, -⟩
    · exact absurd (hadj j hj) (hno j le_rfl hc)
    · omega

/-- The colors of a graph are proper. -/
theorem Connects.proper_color (h : g.Connects n pairs) (hpairs : ∀ p ∈ pairs, p.1 < n ∧ p.2 < n) :
    g.Proper g.color := by
  -- A conflict is noted in both rows, and the coloring looks at the row of the first of the two
  -- buffers.
  have hlater : ∀ {i j : Nat}, g.Adjacent i j → i < j → g.color[i]? ≠ g.color[j]? ∧ g.color[j]? ≠ g.color[i]? := by
    intro i j hadj hij
    obtain ⟨hi, rfl | hp | hp⟩ := h.adjacent.1 hadj
    · exact absurd hij (Nat.lt_irrefl i)
    · have hne := color_ne_of_adjacent h.formed hadj hij (h.length ▸ (hpairs _ hp).2)
      exact ⟨hne, hne.symm⟩
    · have hne := color_ne_of_adjacent h.formed hadj hij (h.length ▸ (hpairs _ hp).1)
      exact ⟨hne, hne.symm⟩
  intro i j hij hadj
  rw [adjacent_eq_ok_true] at hadj
  rcases Nat.lt_or_gt_of_ne hij with hlt | hgt
  · exact (hlater hadj hlt).1
  · exact (hlater (h.symm hpairs hadj) hgt).2

/-- Whatever buffers are put in conflict, the coloring is proper and goes by runs: it starts with
    the first color, and a buffer takes the color of the one before it, or opens the next one, which
    it does exactly when it is in conflict with a buffer of that color. No proper coloring by runs
    has fewer colors. There are as many colors as buffers exactly when every two consecutive ones
    are in conflict. -/
theorem color_connectEach (buffers : List ExprId) {pairs : List (Nat × Nat)}
    (hpairs : ∀ p ∈ pairs, p.1 < buffers.length ∧ p.2 < buffers.length) :
    ∃ g, (ofBuffers buffers).connectEach pairs = .ok g ∧
      (∀ i j : Nat, g.adjacent i j = .ok true ↔ i < buffers.length ∧ (i = j ∨ (i, j) ∈ pairs ∨ (j, i) ∈ pairs)) ∧
      g.color.length = buffers.length ∧ g.Proper g.color ∧ InRuns g.color ∧ (∀ c ∈ g.color.head?, c = 0) ∧
      (∀ j c d : Nat, g.color[j]? = some c → g.color[j + 1]? = some d → (d = c ∨ d = c + 1) ∧
        (d = c + 1 ↔ ∃ i, i ≠ j + 1 ∧ g.color[i]? = some c ∧ g.adjacent i (j + 1 : Nat) = .ok true)) ∧
      (∀ other : List Nat, other.length = buffers.length → g.Proper other → InRuns other →
        numColors g.color ≤ numColors other) ∧
      (numColors g.color = buffers.length ↔
        ∀ j : Nat, j + 1 < buffers.length → g.adjacent j (j + 1 : Nat) = .ok true) := by
  obtain ⟨g, hconnect, hg⟩ := (connects_ofBuffers buffers).connectEach hpairs
  rw [nil_append] at hg
  have hlen : g.color.length = buffers.length := (length_color hg.formed).trans hg.length
  refine ⟨g, hconnect, fun i j => adjacent_eq_ok_true.trans hg.adjacent, hlen, ?_⟩
  have hproper := hg.proper_color hpairs
  have h := greedy_color hg.formed
  refine ⟨hproper, h.inRuns, ?_, ?_, fun other hother => h.numColors_le (hother.trans hlen.symm), ?_⟩
  · intro c hc
    exact h.head (head?_eq_getElem? ▸ hc)
  · intro j c d hc hd
    rcases h.next hc hd with ⟨rfl, -⟩ | ⟨rfl, i, hi, hci, hadj⟩
    · refine ⟨.inl rfl, fun heq => absurd heq (Nat.ne_of_lt (Nat.lt_succ_self d)), ?_⟩
      rintro ⟨i, hi, hci, hadj⟩
      exact absurd (hci.trans hd.symm) (hproper i (j + 1) hi hadj)
    · exact ⟨.inr rfl, fun _ => ⟨i, by omega, hci, adjacent_eq_ok_true.2 hadj⟩, fun _ => rfl⟩
  · rw [← hlen]
    simp only [adjacent_eq_ok_true]
    exact h.numColors_eq_length_iff

/-- Four buffers of which the first two, and the second and the last, are in conflict: no proper
    coloring by runs does with two colors. -/
theorem color_connectEach_four :
    ∃ g, (ofBuffers [4, 7, 9, 12]).connectEach [(0, 1), (3, 1)] = .ok g ∧
    g.color = [0, 1, 1, 2] ∧
      ∀ other : List Nat, other.length = 4 → g.Proper other → InRuns other → 3 ≤ numColors other := by
  obtain ⟨g, hconnect, -, -, -, -, -, -, hbest, -⟩ :=
    color_connectEach [4, 7, 9, 12] (show ∀ p ∈ [(0, 1), (3, 1)], p.1 < 4 ∧ p.2 < 4 by decide)
  have hcolors : ((ofBuffers [4, 7, 9, 12]).connectEach [(0, 1), (3, 1)]).map color = .ok [0, 1, 1, 2] := by rfl
  rw [hconnect] at hcolors
  have hcolor : g.color = [0, 1, 1, 2] := Except.ok.inj hcolors
  rw [hcolor] at hbest
  exact ⟨g, hconnect, hcolor, hbest⟩

end ConflictGraph

end KernelLoops
