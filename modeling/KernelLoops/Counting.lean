set_option autoImplicit false

/-! # Counted loops and small tables

Loops over a counted run of positions stop at the first failure, so a huge count costs nothing when
an early position fails. Small tables are lists of pairs with one pair per key, in the order the
keys first came. -/

namespace KernelLoops

variable {m : Type → Type} [Monad m]

/-- Does `f` at `start`, `start + 1`, …, `n` times. -/
def countM (start : Int) : Nat → (Int → m Unit) → m Unit
  | 0, _ => pure ()
  | n + 1, f => do
    f start
    countM (start + 1) n f

/-- Is there a position among the `n` from `start` on at which `p` holds? -/
def anyCountM (start : Int) : Nat → (Int → m Bool) → m Bool
  | 0, _ => pure false
  | n + 1, p => do
    if ← p start then return true
    anyCountM (start + 1) n p

/-- Does `f` `n` times. -/
def repeatM : Nat → m Unit → m Unit
  | 0, _ => pure ()
  | n + 1, f => do
    f
    repeatM n f

/-! ## Tables -/

variable {β : Type}

/-- The table with `v` under the key. -/
def put (key : Nat) (v : β) : List (Nat × β) → List (Nat × β)
  | [] => [(key, v)]
  | (k, w) :: rest => if k = key then (key, v) :: rest else (k, w) :: put key v rest

/-- A table is looked up from the front. -/
theorem lookup_cons_eq {κ : Type} [BEq κ] [LawfulBEq κ] [DecidableEq κ] (key k : κ) (w : β)
    (rest : List (κ × β)) :
    ((k, w) :: rest).lookup key = if key = k then some w else rest.lookup key := by
  rw [List.lookup_cons]
  by_cases h : key = k
  · rw [if_pos h, beq_iff_eq.2 h]
  · rw [if_neg h, beq_eq_false_iff_ne.2 h]

/-- A key that was put reads back. -/
theorem lookup_put_self (key : Nat) (v : β) (t : List (Nat × β)) :
    (put key v t).lookup key = some v := by
  induction t with
  | nil => rw [put, lookup_cons_eq, if_pos rfl]
  | cons e rest ih =>
    obtain ⟨k, w⟩ := e
    rw [put]
    split
    · rw [lookup_cons_eq, if_pos rfl]
    · next h => rw [lookup_cons_eq, if_neg (Ne.symm h), ih]

/-- The other keys keep their values. -/
theorem lookup_put_of_ne {key other : Nat} (v : β) (t : List (Nat × β)) (h : other ≠ key) :
    (put key v t).lookup other = t.lookup other := by
  induction t with
  | nil => rw [put, lookup_cons_eq, if_neg h]
  | cons e rest ih =>
    obtain ⟨k, w⟩ := e
    rw [put]
    split
    · next hk => rw [lookup_cons_eq, lookup_cons_eq, if_neg h, if_neg (hk ▸ h)]
    · rw [lookup_cons_eq, lookup_cons_eq, ih]

end KernelLoops
