import KernelLoops.Machine.Run
import KernelLoops.Proofs.Trails

set_option autoImplicit false

/-! # Pictures of a machine

What a run can see of memory is a picture: the cells of the blocks a kernel is given, and the
registers. Positions are not part of the picture: they come from outside, so that loops, which do
nothing but move positions, leave pictures alone. An expression acts on pictures (`Expr.Acts`), and
a machine that shows a picture follows (`Shows.runExpr`). -/

namespace KernelLoops

variable {x : Expr} {count : Amount} {b n s : Nat} {t : TensorId} {β : Type}

/-! ## Layouts -/

/-- Which tensors have blocks, and how much room there is. -/
structure Layout where
  /-- The lanes of a register. -/
  lanes : Nat
  /-- The block of a tensor that has one. -/
  home : TensorId → Option Nat
  /-- The number of cells of a block. -/
  room : Nat → Nat

/-- At these positions a window of `n` cells on the tensor starts at cell `s` and lies within its
    block. -/
structure Layout.Opens (L : Layout) (q : Shift) (t : TensorId) (b s n : Nat) : Prop where
  home : L.home t = some b
  start : (q t).toInt = s
  fits : s + n ≤ L.room b
  small : L.room b < 0x8000000000000000

/-! ## Pictures -/

/-- What is in memory and in the registers. -/
structure Picture (α : Type) where
  cells : Nat → Nat → α
  registers : TensorId → Option (Nat → α)

namespace Picture

variable {α : Type}

/-- The picture with a register set. -/
def setRegister (σ : Picture α) (t : TensorId) (f : Nat → α) : Picture α :=
  { σ with registers := fun u => if u = t then some f else σ.registers u }

/-- The picture with `n` cells of a block overwritten from cell `s` on. -/
def write (σ : Picture α) (b s n : Nat) (f : Nat → α) : Picture α :=
  { σ with cells := fun c i => if c = b ∧ s ≤ i ∧ i < s + n then f (i - s) else σ.cells c i }

end Picture

/-- The contents of a cell of a machine. -/
def Machine.cell {α : Type} (A : Arithmetic α) (m : Machine α) (b i : Nat) : α :=
  (m.blocks.getD b (.fresh 0)).get A.zero i

/-- The machine holds what the picture shows, its tensors standing at the positions. -/
structure Machine.Shows {α : Type} (A : Arithmetic α) (L : Layout) (q : Shift) (σ : Picture α)
    (m : Machine α) :
    Prop where
  lanes : storage 4 m.width = .ok L.lanes
  room : ∀ b, m.blockSize b = L.room b
  cells : ∀ b i, m.cell A b i = σ.cells b i
  bound : ∀ t b, L.home t = some b → b < m.blocks.size ∧ m.bindings.lookup t = some ⟨b, q t, false⟩
  registers : ∀ t f, σ.registers t = some f → ∃ r, m.registers.lookup t = some r ∧ r.size = L.lanes ∧
    ∀ i < L.lanes, r[i]? = some (f i)

/-! ## What an expression does -/

/-- What a memory access, a fill or an operation on lanes does to a picture, the tensors standing at
    the positions. Expressions of the interface do nothing. -/
inductive Expr.Acts {α : Type} (A : Arithmetic α) (L : Layout) (q : Shift) : Expr → Picture α →
    Picture α → Prop
  | idle {x : Expr} {σ : Picture α}
      (kind : x.kind = .parameter ∨ x.kind = .result ∨ x.kind = .buffer ∨ x.kind = .constant) : Acts A L q x σ σ
  | load {x : Expr} {σ : Picture α} {src out : Tensor} {b s n : Nat} (kind : x.kind = .load)
      (input : x.inputs = [src]) (output : x.outputs = [out]) (count : x.count.toInt = n)
      (opens : L.Opens q src.id b s n) :
      Acts A L q x σ (σ.setRegister out.id fun i => if i < n then σ.cells b (s + i) else A.zero)
  | broadcast {x : Expr} {σ : Picture α} {src out : Tensor} {b s : Nat} (kind : x.kind = .broadcastLoad)
      (input : x.inputs = [src]) (output : x.outputs = [out]) (opens : L.Opens q src.id b s 1) :
      Acts A L q x σ (σ.setRegister out.id fun _ => σ.cells b s)
  | fill {x : Expr} {σ : Picture α} {src out : Tensor} {f : Nat → α} (kind : x.kind = .fill) (input : x.inputs = [src])
      (output : x.outputs = [out]) (count : 0 ≤ x.count) (value : σ.registers src.id = some f) :
      Acts A L q x σ (σ.setRegister out.id fun i => if x.count.trips ≤ i then A.ofBits x.fillValue else f i)
  | unary {x : Expr} {σ : Picture α} {src out : Tensor} {f : Nat → α} {g : α → α} (kind : x.kind = .elementwise)
      (input : x.inputs = [src]) (output : x.outputs = [out]) (op : A.unary? x.op = some g)
      (value : σ.registers src.id = some f) : Acts A L q x σ (σ.setRegister out.id fun i => g (f i))
  | binary {x : Expr} {σ : Picture α} {left right out : Tensor} {f f' : Nat → α} {g : α → α → α}
      (kind : x.kind = .elementwise) (input : x.inputs = [left, right]) (output : x.outputs = [out])
      (op : A.binary? x.op = some g) (value : σ.registers left.id = some f) (value' : σ.registers right.id = some f') :
      Acts A L q x σ (σ.setRegister out.id fun i => g (f i) (f' i))
  | store {x : Expr} {σ : Picture α} {src out : Tensor} {b s n : Nat} {f : Nat → α} (kind : x.kind = .store)
      (input : x.inputs = [src]) (output : x.outputs = [out]) (count : x.count.toInt = n) (narrow : n ≤ L.lanes)
      (opens : L.Opens q out.id b s n) (value : σ.registers src.id = some f) :
      Acts A L q x σ (σ.write b s n f)

/-! ## Finding tensors -/

namespace Machine

variable {α : Type} {A : Arithmetic α} {L : Layout} {q : Shift} {σ : Picture α} {m : Machine α}

section

variable (h : m.Shows A L q σ)

include h

/-- A tensor with a block can be found. -/
theorem Shows.locate {t : Tensor} (hb : L.home t.id = some b) :
    locate t m = .ok ⟨b, q t.id, false⟩ m := by
  unfold Machine.locate
  rw [get_bind_run, (h.bound t.id b hb).2]
  rfl

/-- A window that lies within its block can be opened. -/
theorem Shows.window {t : Tensor} (hopen : L.Opens q t.id b s n) (hcount : count.toInt = n) :
    ∃ m', window t count m = .ok (b, s, s + n) m' ∧ m'.Shows A L q σ := by
  have hstart := hopen.start
  have hfits := hopen.fits
  have hsmall := hopen.small
  have hstop : (q t.id + count).toInt = s + n := by
    rw [Amount.toInt_add_of_fits, hstart, hcount]
    · rw [hstart, hcount]
      omega
    · rw [hstart, hcount]
      omega
  have hsize : (Int64.ofNat (m.blockSize b)).toInt = L.room b := by
    rw [h.room, Int64.toInt_ofNat', Amount.bmod_word (by omega) (by omega)]
  have hinside : (decide (q t.id < 0) || decide (q t.id + count > Int64.ofNat (m.blockSize b))) = false := by
    rw [Bool.or_eq_false_iff, decide_eq_false_iff_not, decide_eq_false_iff_not]
    constructor
    · intro hneg
      have := Amount.lt_iff.1 hneg
      rw [hstart, Int64.toInt_zero] at this
      omega
    · intro hover
      have := Amount.lt_iff.1 hover
      rw [hstop, hsize] at this
      omega
  have hforward : ¬ q t.id + count < q t.id := by
    intro hback
    have := Amount.lt_iff.1 hback
    rw [hstop, hstart] at this
    omega
  have hbegin : (q t.id).trips = s := by rw [Amount.trips, hstart, Int.toNat_natCast]
  have hend : (q t.id + count).trips = s + n := by
    rw [Amount.trips, hstop]
    exact Int.toNat_natCast (s + n)
  unfold Machine.window
  rw [bind_run_ok (h.locate hopen.home), get_bind_run]
  simp only [hinside, Bool.false_eq_true, if_false, if_neg hforward, hbegin, hend]
  exact ⟨_, rfl, h.lanes, h.room, h.cells, h.bound, h.registers⟩

/-- What is read through a window. -/
theorem Shows.read {t : Tensor} (hopen : L.Opens q t.id b s n) (hcount : count.toInt = n) :
    ∃ values m', read A t count m = .ok values m' ∧ m'.Shows A L q σ ∧ values.size = n ∧
      ∀ i < n, values[i]? = some (σ.cells b (s + i)) := by
  obtain ⟨m1, hwindow, h1⟩ := h.window hopen hcount
  unfold Machine.read
  rw [bind_run_ok hwindow]
  refine ⟨_, m1, rfl, h1, ?_, ?_⟩
  · simp [Block.slice]
  · intro i hi
    rw [← h1.cells]
    simp [Block.slice, hi, cell]

theorem Shows.lanes_run : Machine.lanes m = .ok L.lanes m := by
  unfold Machine.lanes
  rw [get_bind_run, h.lanes]
  rfl

theorem Shows.register {t : Tensor} {f : Nat → α} (hf : σ.registers t.id = some f) :
    ∃ r, register t m = .ok r m ∧ r.size = L.lanes ∧ ∀ i < L.lanes, r[i]? = some (f i) := by
  obtain ⟨r, hr, hsize, hlanes⟩ := h.registers t.id f hf
  unfold Machine.register
  rw [get_bind_run, hr]
  exact ⟨r, rfl, hsize, hlanes⟩

/-- Setting a register as the picture says. -/
theorem Shows.setRegister {out : Tensor} (hout : x.outputs = [out]) {r : Array α} {f : Nat → α}
    (hsize : r.size = L.lanes) (hlanes : ∀ i < L.lanes, r[i]? = some (f i)) :
    ∃ m', setRegister x r m = .ok () m' ∧ m'.Shows A L q (σ.setRegister out.id f) := by
  have houtput : lift (x.output 0) m = .ok out m := by
    rw [Expr.output, hout]
    rfl
  unfold Machine.setRegister
  rw [bind_run_ok houtput]
  refine ⟨_, rfl, h.lanes, h.room, h.cells, h.bound, ?_⟩
  intro t g hg
  by_cases ht : t = out.id
  · subst ht
    obtain rfl : f = g := by
      simpa [Picture.setRegister] using hg
    exact ⟨r, lookup_put_self _ _ _, hsize, hlanes⟩
  · have hg' : σ.registers t = some g := by
      simpa [Picture.setRegister, ht] using hg
    obtain ⟨r', hr', hsize', hlanes'⟩ := h.registers t g hg'
    exact ⟨r', (lookup_put_of_ne _ _ ht).trans hr', hsize', hlanes'⟩

end

theorem getD_modify (xs : Array β) (b i : Nat) (f : β → β) (d : β) (h : b < xs.size) :
    (xs.modify b f).getD i d = if i = b then f (xs.getD i d) else xs.getD i d := by
  simp only [Array.getD_eq_getD_getElem?, Array.getElem?_modify]
  by_cases hi : i = b
  · subst hi
    simp [h]
  · simp [hi, Ne.symm hi]

/-- Writing into a block shows there, and nowhere else. -/
theorem Shows.write (h : m.Shows A L q σ) (hb : b < m.blocks.size) {r : Array α} {f : Nat → α}
    (hnarrow : n ≤ L.lanes)
    (hlanes : ∀ i < L.lanes, r[i]? = some (f i)) :
    ({ m with blocks := m.blocks.modify b (Block.write A.zero s (s + n) r.toList) } : Machine α).Shows A L q
      (σ.write b s n f) := by
  let m' : Machine α := { m with blocks := m.blocks.modify b (Block.write A.zero s (s + n) r.toList) }
  have hblock : ∀ c d, m'.blocks.getD c d =
      if c = b then Block.write A.zero s (s + n) r.toList (m.blocks.getD c d) else m.blocks.getD c d :=
    fun c d => getD_modify m.blocks b c _ d hb
  refine ⟨h.lanes, fun c => ?_, fun c i => ?_, fun t c hc => ?_, h.registers⟩
  · rw [← h.room, blockSize, blockSize, hblock]
    split
    · exact Block.size_write ..
    · rfl
  · show m'.cell A c i = if c = b ∧ s ≤ i ∧ i < s + n then f (i - s) else σ.cells c i
    rw [cell, hblock]
    by_cases hc : c = b
    · rw [if_pos hc, Block.get_write]
      by_cases hi : s ≤ i ∧ i < s + n
      · have hlane : r.toList.getD (i - s) ((m.blocks.getD c (.fresh 0)).get A.zero i) = f (i - s) := by
          rw [List.getD_eq_getElem?_getD, Array.getElem?_toList, hlanes (i - s) (by omega)]
          rfl
        rw [if_pos hi, if_pos ⟨hc, hi⟩, hlane]
      · rw [if_neg hi, if_neg fun hall => hi hall.2]
        exact h.cells c i
    · rw [if_neg hc, if_neg fun hall => hc hall.1]
      exact h.cells c i
  · obtain ⟨hlt, hbound⟩ := h.bound t c hc
    exact ⟨hlt.trans_eq Array.size_modify.symm, hbound⟩

/-- A machine does to what it shows what the expression does to the picture. -/
theorem Shows.runExpr (h : m.Shows A L q σ) {σ' : Picture α} (hx : x.Acts A L q σ σ') :
    ∃ m', runExpr A x m = .ok () m' ∧ m'.Shows A L q σ' := by
  have hinput : ∀ {t : Tensor} {ts : List Tensor} (m : Machine α), x.inputs = t :: ts →
      lift (x.input 0) m = .ok t m := by
    intro t ts m hin
    rw [Expr.input, hin]
    rfl
  have houtput : ∀ {t : Tensor} {ts : List Tensor} (m : Machine α), x.outputs = t :: ts →
      lift (x.output 0) m = .ok t m := by
    intro t ts m hout
    rw [Expr.output, hout]
    rfl
  unfold Machine.runExpr
  cases hx with
  | idle kind =>
    rcases kind with kind | kind | kind | kind
    all_goals
      rw [kind]
      exact ⟨m, rfl, h⟩
  | load kind input output count opens =>
    obtain ⟨values, m1, hread, h1, hsize, hvalues⟩ := h.read opens count
    simp only [kind]
    rw [bind_run_ok h.lanes_run, bind_run_ok (hinput m input), bind_run_ok hread]
    refine h1.setRegister output (by simp; omega) fun i hi => ?_
    have hlong : i < (values ++ Array.replicate (L.lanes - values.size) A.zero).size := by
      rw [Array.size_append, Array.size_replicate]
      omega
    rw [Array.getElem?_extract, if_pos (by omega), Nat.zero_add, Array.getElem?_append]
    split
    · next hlt => rw [hvalues i (hsize ▸ hlt), if_pos (hsize ▸ hlt)]
    · next hge =>
        rw [if_neg (hsize ▸ hge), Array.getElem?_replicate, if_pos (by omega)]
  | @broadcast src out b s kind input output opens =>
    obtain ⟨values, m1, hread, h1, hsize, hvalues⟩ := h.read opens (rfl : (1 : Amount).toInt = (1 : Nat))
    simp only [kind]
    rw [bind_run_ok (hinput m input), bind_run_ok hread, bind_run_ok h1.lanes_run]
    refine h1.setRegister output Array.size_replicate fun i hi => ?_
    have hfirst : values.getD 0 A.zero = σ.cells b s := by
      rw [Array.getD_eq_getD_getElem?, hvalues 0 Nat.one_pos]
      rfl
    rw [Array.getElem?_replicate, if_pos hi, hfirst]
  | fill kind input output count value =>
    obtain ⟨r, hr, hsize, hlanes⟩ := h.register value
    have hpad : ∀ v, lift (padLanes x.count v r) m = .ok (r.mapIdx fun i y => if x.count.trips ≤ i then v else y) m :=
      fun v => congrArg (lift · m) (if_neg (Int64.not_lt.2 count))
    simp only [kind]
    rw [bind_run_ok (hinput m input), bind_run_ok hr, bind_run_ok (hpad _)]
    refine h.setRegister output (by simpa using hsize) fun i hi => ?_
    rw [Array.getElem?_mapIdx, hlanes i hi]
    rfl
  | @unary src out f g kind input output op value =>
    obtain ⟨r, hr, hsize, hlanes⟩ := h.register value
    have hargs : x.inputs.mapM Machine.register m = .ok [r] m := by
      rw [input, List.mapM_cons, bind_run_ok hr]
      rfl
    have hresult : lift (A.elementwise x.op [r] m.width) m = .ok ((r.extract 0 L.lanes).map g) m := by
      rw [Arithmetic.elementwise, h.lanes, op, except_bind_ok rfl]
      simp only [Arithmetic.firstLanes, hsize, Nat.lt_irrefl, if_false]
      rfl
    simp only [kind]
    rw [bind_run_ok hargs, get_bind_run, bind_run_ok hresult]
    refine h.setRegister output (by simp [hsize]) fun i hi => ?_
    rw [Array.getElem?_map, Array.getElem?_extract, if_pos (by omega), Nat.zero_add, hlanes i hi]
    rfl
  | @binary left right out f f' g kind input output op value value' =>
    obtain ⟨r, hr, hsize, hlanes⟩ := h.register value
    obtain ⟨r', hr', hsize', hlanes'⟩ := h.register value'
    have hargs : x.inputs.mapM Machine.register m = .ok [r, r'] m := by
      have hrest : [right].mapM Machine.register m = .ok [r'] m := by
        rw [List.mapM_cons, bind_run_ok hr']
        rfl
      rw [input, List.mapM_cons, bind_run_ok hr, bind_run_ok hrest]
      rfl
    have hresult : lift (A.elementwise x.op [r, r'] m.width) m =
        .ok (Array.zipWith g (r.extract 0 L.lanes) (r'.extract 0 L.lanes)) m := by
      rw [Arithmetic.elementwise, h.lanes, op, except_bind_ok rfl]
      simp only [Arithmetic.firstLanes, hsize, hsize', Nat.lt_irrefl, if_false]
      rfl
    simp only [kind]
    rw [bind_run_ok hargs, get_bind_run, bind_run_ok hresult]
    refine h.setRegister output (by simp [hsize, hsize']) fun i hi => ?_
    rw [Array.getElem?_zipWith, Array.getElem?_extract, Array.getElem?_extract, if_pos (by omega), if_pos (by omega),
      Nat.zero_add, hlanes i hi, hlanes' i hi]
  | store kind input output count narrow opens value =>
    obtain ⟨m1, hwindow, h1⟩ := h.window opens count
    obtain ⟨r, hr, hsize, hlanes⟩ := h1.register value
    simp only [kind]
    rw [bind_run_ok (houtput m output), bind_run_ok hwindow, bind_run_ok (hinput m1 input), bind_run_ok hr]
    exact ⟨_, rfl, h1.write (h1.bound _ _ opens.home).1 narrow hlanes⟩

end Machine

end KernelLoops
