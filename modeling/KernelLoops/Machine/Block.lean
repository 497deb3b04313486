set_option autoImplicit false

/-! # Blocks of memory

A block has a fixed number of cells, and a fresh one holds zeros. Only the cells up to the last one
that was written are kept, so a large block costs nothing until its cells are used. `get_set` and
`get_write` say what a write leaves at every cell. -/

namespace KernelLoops

/-- A run of memory cells. -/
structure Block (α : Type) where
  /-- The number of cells. -/
  size : Nat
  /-- The first cells; all others hold zero. -/
  kept : Array α
deriving DecidableEq, Repr, Inhabited

namespace Block

variable {α : Type}

/-- A fresh block. -/
def fresh (size : Nat) : Block α := { size, kept := #[] }

/-- The block with the contents of an array. -/
def ofArray (a : Array α) : Block α := { size := a.size, kept := a }

variable (zero : α)

/-- The contents of a cell. -/
def get (b : Block α) (i : Nat) : α := b.kept.getD i zero

/-- The block with a cell overwritten. -/
def set (b : Block α) (i : Nat) (v : α) : Block α :=
  { b with kept :=
      if i < b.kept.size then b.kept.setIfInBounds i v
      else (b.kept ++ Array.replicate (i - b.kept.size) zero).push v }

/-- The cells from `start` up to `stop`. -/
def slice (b : Block α) (start stop : Nat) : Array α :=
  Array.ofFn fun (i : Fin (stop - start)) => b.get zero (start + i)

/-- All cells. -/
def toArray (b : Block α) : Array α := b.slice zero 0 b.size

/-- The block with the first of `values` written from cell `i` up to `stop`. -/
def write (i stop : Nat) : List α → Block α → Block α
  | [], b => b
  | v :: vs, b => if i < stop then write (i + 1) stop vs (b.set zero i v) else b

@[simp] theorem size_fresh (n : Nat) : (fresh n : Block α).size = n := rfl

@[simp] theorem size_set (b : Block α) (i : Nat) (v : α) : (b.set zero i v).size = b.size := rfl

/-- A fresh block holds zeros. -/
@[simp] theorem get_fresh (n i : Nat) : (fresh n).get zero i = zero := by
  simp [get, fresh]

/-- A write changes one cell. -/
theorem get_set (b : Block α) (i j : Nat) (v : α) :
    (b.set zero i v).get zero j = if j = i then v else b.get zero j := by
  simp only [get, set, Array.getD_eq_getD_getElem?]
  split
  · next h => grind
  · next h => grind

/-- Writing does not change the number of cells. -/
@[simp] theorem size_write (i stop : Nat) (vs : List α) (b : Block α) :
    (write zero i stop vs b).size = b.size := by
  induction vs generalizing i b with
  | nil => rfl
  | cons v vs ih =>
    rw [write]
    split
    · rw [ih, size_set]
    · rfl

/-- What a write of several values leaves: the values from cell `i` on, as far as there are values
    and the write goes. -/
theorem get_write (i stop j : Nat) (vs : List α) (b : Block α) :
    (write zero i stop vs b).get zero j =
      if i ≤ j ∧ j < stop then vs.getD (j - i) (b.get zero j) else b.get zero j := by
  induction vs generalizing i b with
  | nil => simp [write]
  | cons v vs ih =>
    rw [write]
    split
    · next h =>
      rw [ih, get_set]
      by_cases hj : j = i
      · subst hj
        rw [if_neg (by omega), if_pos rfl, if_pos ⟨Nat.le_refl _, h⟩, Nat.sub_self, List.getD_cons_zero]
      · grind
    · next h => rw [if_neg (by omega)]

end Block

end KernelLoops
