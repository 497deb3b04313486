import KernelLoops.Proofs.Painting

set_option autoImplicit false

/-! # Setting up a machine

What a kernel without buffers asks for before it runs: a block for each parameter and result, and
registers as wide as its widest memory access. A machine can be set up wherever the arguments have
the sizes asked for, and shows them (`Asks.exists_setup`); what it has in its outputs after a run is
read off the picture (`Machine.Shows.outputs`). -/

namespace KernelLoops

open List

variable {x : Expr} {p p' r r' block inputs : Nat} {t : Tensor} {a : TensorId × Nat}
  {args : List (TensorId × Nat)}

/-! ## What is asked for -/

/-- The expression has a tensor of the interface bound to a block, `p` parameters and `r` results
    having been bound before it. -/
inductive Expr.Takes (inputs p r : Nat) (x : Expr) (t : Tensor) : Nat → Nat → Nat → Prop
  | parameter (kind : x.kind = .parameter) (none : x.inputs = []) (output : x.outputs = [t]) :
      x.Takes inputs p r t (1 + p) (p + 1) r
  | result (kind : x.kind = .result) (input : x.inputs = [t]) (none : x.outputs = []) :
      x.Takes inputs p r t (1 + inputs + r) p (r + 1)

/-- The blocks that expressions in a row ask for, `p` parameters and `r` results having been bound
    before them. A kernel asks for all its inputs and outputs. -/
inductive Asks (room : Nat → Nat) (inputs outputs : Nat) : Nat → Nat → List Expr →
    List (TensorId × Nat) → Prop
  | nil : Asks room inputs outputs inputs outputs [] []
  | argument {p p' r r' block : Nat} {x : Expr} {xs : List Expr} {t : Tensor} {args : List (TensorId × Nat)}
      (takes : x.Takes inputs p r t block p' r') (float : t.elementType = .float32)
      (size : t.numElements = Int64.ofNat (room block)) (rest : Asks room inputs outputs p' r' xs args) :
      Asks room inputs outputs p r (x :: xs) ((t.id, block) :: args)
  | quiet {p r : Nat} {x : Expr} {xs : List Expr} {args : List (TensorId × Nat)}
      (kind : x.kind ≠ .parameter ∧ x.kind ≠ .result ∧ x.kind ≠ .buffer)
      (float : x.kind.isMarker = false → ∀ t ∈ x.inputs ++ x.outputs, t.elementType = .float32)
      (rest : Asks room inputs outputs p r xs args) : Asks room inputs outputs p r (x :: xs) args

/-- The lanes that expressions need, going on from `w`. -/
def widest (w : Amount) (xs : List Expr) : Amount :=
  xs.foldl (fun w x => if x.kind.isMemoryAccess then max w x.count else w) w

theorem widest_cons (w : Amount) (x : Expr) (xs : List Expr) :
    widest w (x :: xs) = widest (if x.kind.isMemoryAccess then max w x.count else w) xs := rfl

/-- Every memory access is as wide as the lanes or narrower, and one of them is as wide unless the
    lanes were there before. -/
theorem widest_spec (w : Amount) (xs : List Expr) :
    w ≤ widest w xs ∧ (∀ x ∈ xs, x.kind.isMemoryAccess = true → x.count ≤ widest w xs) ∧
      (widest w xs = w ∨ ∃ x ∈ xs, x.kind.isMemoryAccess = true ∧ widest w xs = x.count) := by
  induction xs generalizing w with
  | nil => exact ⟨Int64.le_refl w, fun _ hx => (nomatch hx), .inl rfl⟩
  | cons x xs ih =>
    rw [widest_cons]
    cases hx : x.kind.isMemoryAccess with
    | false =>
      obtain ⟨hle, hall, hsome⟩ := ih w
      refine ⟨hle, fun y hy hmem => ?_, hsome.imp id fun ⟨y, hy, h⟩ => ⟨y, mem_cons_of_mem x hy, h⟩⟩
      rcases mem_cons.1 hy with rfl | hy
      · rw [hx] at hmem
        cases hmem
      · exact hall y hy hmem
    | true =>
      obtain ⟨hle, hall, hsome⟩ := ih (max w x.count)
      obtain ⟨hw, hc, hmax⟩ := Amount.max_spec w x.count
      refine ⟨Int64.le_trans hw hle, fun y hy hmem => ?_, ?_⟩
      · rcases mem_cons.1 hy with rfl | hy
        · exact Int64.le_trans hc hle
        · exact hall y hy hmem
      · rcases hsome with hsame | ⟨y, hy, hmem, hcount⟩
        · rcases hmax with hmax | hmax
          · exact .inl (hsame.trans hmax)
          · exact .inr ⟨x, mem_cons_self, hx, hsame.trans hmax⟩
        · exact .inr ⟨y, mem_cons_of_mem x hy, hmem, hcount⟩

namespace Asks

variable {room : Nat → Nat} {outputs : Nat} {xs ys zs : List Expr}

theorem le (h : Asks room inputs outputs p r xs args) : p ≤ inputs ∧ r ≤ outputs := by
  induction h with
  | nil => exact ⟨Nat.le_refl _, Nat.le_refl _⟩
  | argument takes _ _ _ ih =>
    cases takes with
    | parameter => exact ⟨Nat.le_of_succ_le ih.1, ih.2⟩
    | result => exact ⟨ih.1, Nat.le_of_succ_le ih.2⟩
  | quiet _ _ _ ih => exact ih

/-- What is bound lies in blocks that are there from the start. It is made by parameters or read by
    results. -/
theorem interface (h : Asks room inputs outputs p r xs args) (ha : a ∈ args) :
    a.2 < 1 + inputs + outputs ∧
    ∃ x ∈ xs, x.kind = .parameter ∧ a.1 ∈ x.outputIds ∨ x.kind = .result ∧ a.1 ∈ x.inputIds := by
  induction h with
  | nil => cases ha
  | @argument p p' r r' block x xs t args takes _ _ rest ih =>
    rcases mem_cons.1 ha with rfl | ha
    · have hle := rest.le
      cases takes with
      | parameter kind none output =>
        exact ⟨by simp only; omega, x, mem_cons_self, .inl ⟨kind, by simp [Expr.outputIds, output]⟩⟩
      | result kind input none =>
        exact ⟨by simp only; omega, x, mem_cons_self, .inr ⟨kind, by simp [Expr.inputIds, input]⟩⟩
    · obtain ⟨hlt, y, hy, hcases⟩ := ih ha
      exact ⟨hlt, y, mem_cons_of_mem x hy, hcases⟩
  | @quiet p r x xs args _ _ _ ih =>
    obtain ⟨hlt, y, hy, hcases⟩ := ih ha
    exact ⟨hlt, y, mem_cons_of_mem x hy, hcases⟩

/-- Expressions that ask for nothing do not show. -/
theorem insert (h : Asks room inputs outputs p r (xs ++ zs) args) (hys : ∀ y ∈ ys,
      (y.kind ≠ .parameter ∧ y.kind ≠ .result ∧ y.kind ≠ .buffer) ∧
      (y.kind.isMarker = false → ∀ t ∈ y.inputs ++ y.outputs, t.elementType = .float32)) :
    Asks room inputs outputs p r (xs ++ (ys ++ zs)) args := by
  induction xs generalizing p r args with
  | nil =>
    induction ys with
    | nil => exact h
    | cons y ys ih =>
      obtain ⟨hkind, hfloat⟩ := hys y mem_cons_self
      exact .quiet hkind hfloat (ih fun z hz => hys z (mem_cons_of_mem y hz))
  | cons x xs ih =>
    cases h with
    | argument takes float size rest => exact .argument takes float size (ih rest)
    | quiet kind float rest => exact .quiet kind float (ih rest)

/-- What is asked for does not depend on numbers, tags and names of loops. -/
theorem of_bare (h : Asks room inputs outputs p r xs args)
    (hbare : xs.map Expr.bare = ys.map Expr.bare) :
    Asks room inputs outputs p r ys args := by
  induction h generalizing ys with
  | nil =>
    rw [map_eq_nil_iff.1 hbare.symm]
    exact .nil
  | argument takes float size _ ih =>
    obtain ⟨y, ys, rfl, hy, hys⟩ := map_eq_cons_iff.1 hbare.symm
    rw [Expr.eq_of_bare hy.symm]
    refine .argument ?_ float size (ih hys.symm)
    cases takes with
    | parameter kind none output => exact .parameter kind none output
    | result kind input none => exact .result kind input none
  | quiet kind float _ ih =>
    obtain ⟨y, ys, rfl, hy, hys⟩ := map_eq_cons_iff.1 hbare.symm
    rw [Expr.eq_of_bare hy.symm]
    exact .quiet kind float (ih hys.symm)

end Asks

/-! ## Setting up -/

namespace Machine

variable {α : Type}

/-- The machine with the arguments bound. -/
def bound (args : List (TensorId × Nat)) (m : Machine α) : Machine α :=
  args.foldl (fun m a => m.bind a.1 ⟨a.2, 0, false⟩) m

theorem find?_float (ts : List Tensor) (h : ∀ t ∈ ts, t.elementType = .float32) :
    (ts.find? fun t => t.elementType ≠ .float32) = none := by
  refine find?_eq_none.2 fun t ht => ?_
  rw [h t ht]
  decide

theorem setupExpr_takes {outputs : Nat} {m : Machine α} (h : x.Takes inputs p r t block p' r')
    (hfloat : t.elementType = .float32)
    (hsize : t.numElements = Int64.ofNat (m.blockSize block)) (hp : p' ≤ inputs) (hr : r' ≤ outputs) :
    setupExpr inputs outputs ⟨m, p, r⟩ x = .ok ⟨m.bind t.id ⟨block, 0, false⟩, p', r'⟩ := by
  have hbind : m.bindArgument t block = .ok (m.bind t.id ⟨block, 0, false⟩) := if_neg (not_not.2 hsize)
  have hfind := find?_float (x.inputs ++ x.outputs) (by cases h <;> simp [*])
  unfold setupExpr
  rw [hfind]
  cases h with
  | parameter kind none output =>
    rw [show x.output 0 = .ok t by rw [Expr.output, output]; rfl]
    simp only [kind, OpKind.isMemoryAccess, OpKind.isMarker, ge_iff_le, Nat.not_le.2 hp, if_false, Bool.false_eq_true]
    refine (except_bind_ok rfl).trans ?_
    rw [hbind]
    rfl
  | result kind input none =>
    rw [show x.input 0 = .ok t by rw [Expr.input, input]; rfl]
    simp only [kind, OpKind.isMemoryAccess, OpKind.isMarker, ge_iff_le, Nat.not_le.2 hr, if_false, Bool.false_eq_true]
    refine (except_bind_ok rfl).trans ?_
    rw [hbind]
    rfl

theorem setupExpr_quiet {outputs : Nat} {m : Machine α}
    (hkind : x.kind ≠ .parameter ∧ x.kind ≠ .result ∧ x.kind ≠ .buffer)
    (hfloat : x.kind.isMarker = false → ∀ t ∈ x.inputs ++ x.outputs, t.elementType = .float32) :
    setupExpr inputs outputs ⟨m, p, r⟩ x =
      .ok ⟨{ m with width := if x.kind.isMemoryAccess then max m.width x.count else m.width }, p, r⟩ := by
  unfold setupExpr
  have hwidth : (if x.kind.isMemoryAccess then { m with width := max m.width x.count } else m) =
      { m with width := if x.kind.isMemoryAccess then max m.width x.count else m.width } := by
    split <;> rfl
  simp only [hwidth]
  cases hmarker : x.kind.isMarker with
  | true =>
    revert hmarker
    cases x.kind <;> intro hmarker <;> first | rfl | cases hmarker
  | false =>
    rw [find?_float _ (hfloat hmarker)]
    obtain ⟨h1, h2, h3⟩ := hkind
    revert h1 h2 h3
    cases x.kind <;> intro h1 h2 h3 <;> first | rfl | exact absurd rfl h1 | exact absurd rfl h2 | exact absurd rfl h3

theorem bound_eq (args : List (TensorId × Nat)) (m : Machine α) :
    m.bound args = { m with bindings := args.foldl (fun bs a => put a.1 ⟨a.2, 0, false⟩ bs) m.bindings } := by
  induction args generalizing m with
  | nil => rfl
  | cons a args ih => exact ih (m.bind a.1 ⟨a.2, 0, false⟩)

end Machine

variable {α : Type}

/-- Binding what expressions ask for. -/
theorem Asks.foldlM_setupExpr {room : Nat → Nat} {outputs : Nat} {xs : List Expr}
    (h : Asks room inputs outputs p r xs args) (m : Machine α) (hroom : ∀ b, m.blockSize b = room b) :
    xs.foldlM (Machine.setupExpr inputs outputs) ⟨m, p, r⟩ =
      .ok ⟨{ m.bound args with width := widest m.width xs }, inputs, outputs⟩ := by
  induction h generalizing m with
  | nil => rfl
  | @argument p p' r r' block x xs t args takes float size rest ih =>
    have hwidth : widest m.width (x :: xs) = widest m.width xs := by
      rw [widest_cons]
      cases takes <;> simp [*, OpKind.isMemoryAccess]
    rw [hwidth]
    exact (except_bind_ok (Machine.setupExpr_takes takes float (by rw [hroom, size]) rest.le.1 rest.le.2)).trans
      (ih _ hroom)
  | @quiet p r x xs args kind float rest ih =>
    have hrest := ih { m with width := if x.kind.isMemoryAccess then max m.width x.count else m.width } hroom
    refine (except_bind_ok (Machine.setupExpr_quiet kind float)).trans (hrest.trans ?_)
    rw [Machine.bound_eq, Machine.bound_eq, widest_cons]

/-- The memory of a machine before a run, without a scratch area. -/
def Machine.memory (inputs outputs : List (Array α)) : Array (Block α) :=
  (.fresh 0 :: (inputs ++ outputs).map .ofArray).toArray

/-! ## What a machine shows at first -/

/-- The layout of a machine with arguments bound. -/
def interfaceLayout (args : List (TensorId × Nat)) (inputs outputs : List (Array α)) (lanes : Nat) :
    Layout where
  lanes := lanes
  home t := args.lookup t
  room b := ((Machine.memory inputs outputs).getD b (.fresh 0)).size

/-- Looking up an argument. -/
theorem lookup_foldl_put (hnodup : (args.map Prod.fst).Nodup) (bs : List (TensorId × Binding))
    (t : TensorId) :
    (args.foldl (fun bs a => put a.1 ⟨a.2, 0, false⟩ bs) bs).lookup t =
      ((args.lookup t).map (⟨·, 0, false⟩)).or (bs.lookup t) := by
  induction args generalizing bs with
  | nil => rfl
  | cons a args ih =>
    obtain ⟨hnot, hnodup⟩ := nodup_cons.1 hnodup
    rw [foldl_cons, ih hnodup, lookup_cons_eq]
    split
    · next heq =>
        have hnone : args.lookup t = none := by
          refine lookup_eq_none_iff.2 fun p hp => ?_
          rw [heq, bne_iff_ne]
          rintro hp'
          exact hnot (hp' ▸ mem_map_of_mem hp)
        rw [hnone, heq, Option.map_none, Option.none_or, lookup_put_self]
        rfl
    · next hne => rw [lookup_put_of_ne _ _ hne]

/-- The picture of memory before a run. -/
def Picture.ofMemory (A : Arithmetic α) (memory : Array (Block α)) : Picture α where
  cells b i := (memory.getD b (.fresh 0)).get A.zero i
  registers _ := none

/-- A machine can be set up for a kernel that asks for its arguments, and shows them. -/
theorem Asks.exists_setup {k : Kernel} {inputs outputs : List (Array α)} {lanes : Nat}
    (h : Asks (interfaceLayout args inputs outputs lanes).room inputs.length outputs.length 0 0 k.sequence args)
    (hscratch : k.scratchSize = 0) (hnodup : (args.map Prod.fst).Nodup)
    (hlanes : storage 4 (widest 1 k.sequence) = .ok lanes) (A : Arithmetic α) :
    ∃ m, Machine.setup k inputs outputs = .ok m ∧ m.Shows A (interfaceLayout args inputs outputs lanes) 0
      (.ofMemory A (Machine.memory inputs outputs)) := by
  let m0 : Machine α := { blocks := Machine.memory inputs outputs }
  have hfold := h.foldlM_setupExpr m0 fun _ => rfl
  refine ⟨{ m0.bound args with width := widest 1 k.sequence }, ?_, ?_⟩
  · unfold Machine.setup
    rw [hscratch]
    refine (except_bind_ok (show storage 4 (0 / 4) = .ok 0 by decide)).trans ((except_bind_ok hfold).trans ?_)
    simp
    rfl
  · rw [Machine.bound_eq]
    have hsize : (Machine.memory inputs outputs).size = 1 + inputs.length + outputs.length := by
      simp [Machine.memory]
      omega
    refine ⟨hlanes, fun _ => rfl, fun _ _ => rfl, fun t b hb => ?_, fun t f hf => by cases hf⟩
    obtain ⟨pre, post, hsplit, -⟩ := lookup_eq_some_iff.1 hb
    refine ⟨(h.interface (a := (t, b)) (by rw [hsplit]; simp)).1.trans_eq hsize.symm, ?_⟩
    rw [lookup_foldl_put hnodup, show args.lookup t = some b from hb]
    rfl

/-- The outputs of a machine are the last of the blocks it shows. -/
theorem Machine.Shows.outputs {A : Arithmetic α} {L : Layout} {q : Shift} {σ : Picture α}
    {m : Machine α}
    (h : m.Shows A L q σ) (outputs : Nat) : m.outputs A inputs outputs = (range outputs).map fun j =>
      Array.ofFn fun i : Fin (L.room (1 + inputs + j)) => σ.cells (1 + inputs + j) i := by
  refine map_congr_left fun j _ => Array.ext ?_ fun i hi hi' => ?_
  · rw [Array.size_ofFn, ← h.room]
    simp [Block.toArray, Block.slice, Machine.blockSize]
  · rw [Array.getElem_ofFn, ← h.cells]
    simp [Block.toArray, Block.slice, Machine.cell]

end KernelLoops
