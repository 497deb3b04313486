import KernelLoops.Proofs.Journeys

set_option autoImplicit false

/-! # Flows

One run of a loop body takes some elements from memory through the registers back to memory. A
`Flow` says with which values: it gives every tensor its first `c` lanes, those of registers and
those at the windows on memory alike, so that each expression finds the lanes of what it reads and
leaves those of what it makes. What the other lanes hold does not matter. A body with a flow can be
run, and what it leaves in the blocks of the kernel are the lanes of what it stores
(`Flow.leads`). -/

namespace KernelLoops

open List

variable {x : Expr} {L : Layout} {regs : List TensorId} {c : Nat} {hit hit' : Nat → Nat → Prop}
  {q : Shift}
  {t : TensorId}

variable {α : Type}

/-- The expressions can be run `c` lanes at a time with the lanes `W`: `regs` are the registers that
    hold theirs already, and `mems` the windows, which nothing writes, with the numbers of their
    elements. -/
inductive Flow (A : Arithmetic α) (L : Layout) (q : Shift) (c : Nat) (W : TensorId → Nat → α)
    (mems : List (TensorId × Nat)) : List TensorId → List Expr → Prop
  | nil (regs : List TensorId) : Flow A L q c W mems regs []
  | load {regs : List TensorId} {x : Expr} {xs : List Expr} {src out : Tensor} {b s : Nat}
      (kind : x.kind = .load) (input : x.inputs = [src]) (output : x.outputs = [out]) (opens : L.Opens q src.id b s c)
      (held : (src.id, c) ∈ mems) (value : ∀ i < c, W out.id i = W src.id i)
      (rest : Flow A L q c W mems (out.id :: regs) xs) : Flow A L q c W mems regs (x :: xs)
  | broadcast {regs : List TensorId} {x : Expr} {xs : List Expr} {src out : Tensor} {b s : Nat}
      (kind : x.kind = .broadcastLoad) (input : x.inputs = [src]) (output : x.outputs = [out])
      (opens : L.Opens q src.id b s 1) (held : (src.id, 1) ∈ mems) (value : ∀ i < c, W out.id i = W src.id 0)
      (rest : Flow A L q c W mems (out.id :: regs) xs) : Flow A L q c W mems regs (x :: xs)
  | binary {regs : List TensorId} {x : Expr} {xs : List Expr} {left right out : Tensor} {g : α → α → α}
      (kind : x.kind = .elementwise) (input : x.inputs = [left, right]) (output : x.outputs = [out])
      (op : A.binary? x.op = some g) (heldLeft : left.id ∈ regs) (heldRight : right.id ∈ regs)
      (value : ∀ i < c, W out.id i = g (W left.id i) (W right.id i))
      (rest : Flow A L q c W mems (out.id :: regs) xs) : Flow A L q c W mems regs (x :: xs)
  | store {regs : List TensorId} {x : Expr} {xs : List Expr} {src out : Tensor} {b s : Nat}
      (kind : x.kind = .store) (input : x.inputs = [src]) (output : x.outputs = [out]) (opens : L.Opens q out.id b s c)
      (held : src.id ∈ regs) (value : ∀ i < c, W out.id i = W src.id i) (apart : ∀ w ∈ mems, L.home w.1 ≠ some b)
      (rest : Flow A L q c W mems regs xs) : Flow A L q c W mems regs (x :: xs)

/-- The expressions that take a number of elements from their count take `c`. -/
def Counted (c : Nat) (xs : List Expr) : Prop :=
  ∀ x ∈ xs, x.kind = .load ∨ x.kind = .store → x.count.toInt = c

namespace Picture

/-- The registers and the windows hold their lanes. -/
structure Holds (σ : Picture α) (L : Layout) (q : Shift) (c : Nat) (W : TensorId → Nat → α)
    (mems : List (TensorId × Nat))
    (regs : List TensorId) : Prop where
  registers : ∀ t ∈ regs, ∃ f, σ.registers t = some f ∧ ∀ i < c, f i = W t i
  cells : ∀ w ∈ mems, ∀ b, L.home w.1 = some b → ∀ i < w.2, σ.cells b ((q w.1).toInt.toNat + i) = W w.1 i

/-- The blocks hold the values `V` where they are hit, and what they held elsewhere. -/
def Becomes (σ σ' : Picture α) (hit : Nat → Nat → Prop) (V : Nat → Nat → α) : Prop :=
  ∀ b i, (hit b i → σ'.cells b i = V b i) ∧ (¬hit b i → σ'.cells b i = σ.cells b i)

theorem Becomes.trans {σ σ1 σ2 : Picture α} {V : Nat → Nat → α} (h : σ.Becomes σ1 hit V)
    (h' : σ1.Becomes σ2 hit' V) :
    σ.Becomes σ2 (fun b i => hit b i ∨ hit' b i) V := by
  intro b i
  obtain ⟨hin, hout⟩ := h b i
  obtain ⟨hin', hout'⟩ := h' b i
  refine ⟨fun hhit => ?_, fun hmiss => ?_⟩
  · by_cases hlater : hit' b i
    · exact hin' hlater
    · rw [hout' hlater, hin (hhit.resolve_right hlater)]
  · rw [hout' fun hlater => hmiss (.inr hlater), hout fun hfirst => hmiss (.inl hfirst)]

theorem Becomes.congr {σ σ' : Picture α} {V : Nat → Nat → α} (h : σ.Becomes σ' hit V)
    (heq : ∀ b i, hit b i ↔ hit' b i) : σ.Becomes σ' hit' V := by
  intro b i
  rw [← heq b i]
  exact h b i

theorem Holds.setRegister {σ : Picture α} {W : TensorId → Nat → α} {mems : List (TensorId × Nat)}
    (h : σ.Holds L q c W mems regs) {f : Nat → α} (hf : ∀ i < c, f i = W t i) :
    (σ.setRegister t f).Holds L q c W mems (t :: regs) := by
  refine ⟨fun u hu => ?_, h.cells⟩
  by_cases hut : u = t
  · subst hut
    exact ⟨f, if_pos rfl, hf⟩
  · obtain ⟨g, hg, hlanes⟩ := h.registers u ((mem_cons.1 hu).resolve_left hut)
    exact ⟨g, (if_neg hut).trans hg, hlanes⟩

end Picture

/-- The tensors that a body stores. -/
def stored (xs : List Expr) : List Tensor :=
  xs.flatMap fun x => if x.kind = .store then x.outputs else []

/-- The cells of a block that the stores of a body write. -/
def hits (L : Layout) (q : Shift) (c : Nat) (xs : List Expr) (b i : Nat) : Prop :=
  ∃ t ∈ stored xs, L.home t.id = some b ∧ ∃ s : Nat, (q t.id).toInt = s ∧ s ≤ i ∧ i < s + c

/-- The values that a body stores into blocks are those of `V`. -/
def Delivers (L : Layout) (q : Shift) (c : Nat) (W : TensorId → Nat → α) (V : Nat → Nat → α)
    (xs : List Expr) : Prop :=
  ∀ t ∈ stored xs, ∀ b, L.home t.id = some b → ∀ s : Nat, (q t.id).toInt = s → ∀ i < c, W t.id i = V b (s + i)

theorem stored_cons_of_ne (hkind : x.kind ≠ .store) (xs : List Expr) :
    stored (x :: xs) = stored xs := by
  rw [stored, flatMap_cons, if_neg hkind]
  rfl

theorem stored_cons_store {out : Tensor} (hkind : x.kind = .store) (hout : x.outputs = [out])
    (xs : List Expr) :
    stored (x :: xs) = out :: stored xs := by
  rw [stored, flatMap_cons, if_pos hkind, hout]
  rfl

namespace Flow

variable {A : Arithmetic α} {d : Shift} {W : TensorId → Nat → α} {mems : List (TensorId × Nat)}
  {xs : List Expr}

/-- A body with a flow can be run, and leaves in the blocks what it stores. -/
theorem leads (h : Flow A L (q + d) c W mems regs xs) (hcounted : Counted c xs)
    (hlanes : c ≤ L.lanes)
    {V : Nat → Nat → α} (hV : Delivers L (q + d) c W V xs) {σ : Picture α} (hσ : σ.Holds L (q + d) c W mems regs) :
    ∃ σ', Leads A L q (xs.map fun x => (d, x)) σ σ' ∧ σ.Becomes σ' (hits L (q + d) c xs) V := by
  -- an expression other than a store sets a register, and what follows does the rest
  have hregister : ∀ {x : Expr} {xs : List Expr} {σ σ1 : Picture α}, x.kind ≠ .store → x.Acts A L (q + d) σ σ1 →
      σ1.cells = σ.cells → (∃ σ', Leads A L q (xs.map fun x => (d, x)) σ1 σ' ∧
        σ1.Becomes σ' (hits L (q + d) c xs) V) →
      ∃ σ', Leads A L q ((x :: xs).map fun x => (d, x)) σ σ' ∧ σ.Becomes σ' (hits L (q + d) c (x :: xs)) V := by
    rintro x xs σ σ1 hkind hacts hcells ⟨σ', hleads, hbecomes⟩
    refine ⟨σ', .cons hacts hleads, fun b i => ?_⟩
    rw [hits, stored_cons_of_ne hkind, ← hcells]
    exact hbecomes b i
  induction h generalizing σ with
  | nil regs =>
    refine ⟨σ, .nil σ, fun b i => ⟨fun hhit => ?_, fun _ => rfl⟩⟩
    obtain ⟨t, ht, -⟩ := hhit
    cases ht
  | @load regs x xs src out b s kind input output opens held value rest ih =>
    have hne : x.kind ≠ .store := by rw [kind]; decide
    have hcount := hcounted x mem_cons_self (.inl kind)
    have hstart : ((q + d) src.id).toInt.toNat = s := by rw [opens.start, Int.toNat_natCast]
    refine hregister hne (.load kind input output hcount opens) rfl ?_
    refine ih (fun y hy => hcounted y (mem_cons_of_mem x hy)) (by rwa [Delivers, stored_cons_of_ne hne] at hV) ?_
    refine hσ.setRegister fun i hi => ?_
    rw [if_pos hi, value i hi, ← hσ.cells _ held b opens.home i hi, hstart]
  | @broadcast regs x xs src out b s kind input output opens held value rest ih =>
    have hne : x.kind ≠ .store := by rw [kind]; decide
    have hstart : ((q + d) src.id).toInt.toNat = s := by rw [opens.start, Int.toNat_natCast]
    refine hregister hne (.broadcast kind input output opens) rfl ?_
    refine ih (fun y hy => hcounted y (mem_cons_of_mem x hy)) (by rwa [Delivers, stored_cons_of_ne hne] at hV) ?_
    refine hσ.setRegister fun i hi => ?_
    rw [value i hi, ← hσ.cells _ held b opens.home 0 Nat.one_pos, hstart, Nat.add_zero]
  | @binary regs x xs left right out g kind input output op heldLeft heldRight value rest ih =>
    have hne : x.kind ≠ .store := by rw [kind]; decide
    obtain ⟨f, hf, hlane⟩ := hσ.registers left.id heldLeft
    obtain ⟨f', hf', hlane'⟩ := hσ.registers right.id heldRight
    refine hregister hne (.binary kind input output op hf hf') rfl ?_
    refine ih (fun y hy => hcounted y (mem_cons_of_mem x hy)) (by rwa [Delivers, stored_cons_of_ne hne] at hV) ?_
    refine hσ.setRegister fun i hi => ?_
    rw [hlane i hi, hlane' i hi, value i hi]
  | @store regs x xs src out blk s kind input output opens held value apart rest ih =>
    have hcount := hcounted x mem_cons_self (.inr kind)
    obtain ⟨f, hf, hf'⟩ := hσ.registers src.id held
    have hlane : ∀ i < c, f i = W out.id i := fun i hi => (hf' i hi).trans (value i hi).symm
    rw [Delivers, stored_cons_store kind output, forall_mem_cons] at hV
    have hcells : ∀ w ∈ mems, ∀ b, L.home w.1 = some b → ∀ i < w.2,
        (σ.write blk s c f).cells b (((q + d) w.1).toInt.toNat + i) = W w.1 i := by
      intro w hw b hb i hi
      rw [← hσ.cells w hw b hb i hi]
      refine if_neg fun hall => apart w hw ?_
      rw [hb, hall.1]
    obtain ⟨σ', hleads, hbecomes⟩ := ih (fun y hy => hcounted y (mem_cons_of_mem x hy)) hV.2
      (σ := σ.write blk s c f) ⟨hσ.registers, hcells⟩
    refine ⟨σ', .cons (.store kind input output hcount hlanes opens hf) hleads, ?_⟩
    -- the store itself delivers its lanes, and what follows delivers its own
    have hfirst : σ.Becomes (σ.write blk s c f)
        (fun b i => L.home out.id = some b ∧ ∃ s : Nat, ((q + d) out.id).toInt = s ∧ s ≤ i ∧ i < s + c) V := by
      intro b i
      have hhome : b = blk ↔ L.home out.id = some b := by
        rw [opens.home, Option.some.injEq]
        exact eq_comm
      have hwindow : (∃ s : Nat, ((q + d) out.id).toInt = s ∧ s ≤ i ∧ i < s + c) ↔ s ≤ i ∧ i < s + c := by
        rw [opens.start]
        refine ⟨fun ⟨s', hs', hi⟩ => ?_, fun hi => ⟨s, rfl, hi⟩⟩
        rwa [Int.ofNat_inj.1 hs']
      simp only [Picture.write, hhome, hwindow]
      refine ⟨fun hhit => ?_, fun hmiss => if_neg hmiss⟩
      rw [if_pos hhit, hlane (i - s) (by omega), hV.1 b hhit.1 s opens.start (i - s) (by omega)]
      congr 1
      omega
    refine (hfirst.trans hbecomes).congr fun b i => ?_
    rw [hits, hits, stored_cons_store kind output, exists_mem_cons_iff]

end Flow

/-! ## Bodies one after the other -/

/-- One run of a body. -/
structure Job where
  /-- How far each tensor has moved by then. -/
  shift : Shift
  /-- The number of elements it handles. -/
  count : Nat
  body : List Expr

namespace Job

/-- The stops of a job. -/
def stops (j : Job) : List (Shift × Expr) := j.body.map fun x => (j.shift, x)

/-- The job can be run on every picture that has, outside the blocks `T`, what `σ` has: it writes
    the values `V`, into blocks of `T` only, and what it takes from blocks comes from outside
    `T`. -/
structure Works (A : Arithmetic α) (L : Layout) (q : Shift) (V : Nat → Nat → α) (σ : Picture α)
    (T : Nat → Prop)
    (j : Job) : Prop where
  flow : ∃ W mems, Flow A L (q + j.shift) j.count W mems [] j.body ∧ Delivers L (q + j.shift) j.count W V j.body ∧
    ∀ w ∈ mems, ∃ b, L.home w.1 = some b ∧ ¬T b ∧
      ∀ i < w.2, σ.cells b (((q + j.shift) w.1).toInt.toNat + i) = W w.1 i
  counted : Counted j.count j.body
  lanes : j.count ≤ L.lanes
  targets : ∀ t ∈ stored j.body, ∀ b, L.home t.id = some b → T b

variable {A : Arithmetic α} {V : Nat → Nat → α} {σ : Picture α} {T : Nat → Prop}

theorem Works.not_hits {j : Job} (h : j.Works A L q V σ T) {b : Nat} (hb : ¬T b) (i : Nat) :
    ¬hits L (q + j.shift) j.count j.body b i := by
  rintro ⟨t, ht, hhome, -⟩
  exact hb (h.targets t ht b hhome)

/-- Jobs that work can be run one after the other. -/
theorem leads {jobs : List Job} (h : ∀ j ∈ jobs, j.Works A L q V σ T) {σ1 : Picture α}
    (hσ : ∀ b, ¬T b → σ1.cells b = σ.cells b) :
    ∃ σ', Leads A L q (jobs.flatMap stops) σ1 σ' ∧
      σ1.Becomes σ' (fun b i => ∃ j ∈ jobs, hits L (q + j.shift) j.count j.body b i) V := by
  induction jobs generalizing σ1 with
  | nil => exact ⟨σ1, .nil σ1, fun b i => ⟨fun ⟨j, hj, _⟩ => (nomatch hj), fun _ => rfl⟩⟩
  | cons j jobs ih =>
    have hj := h j mem_cons_self
    obtain ⟨W, mems, hflow, hdelivers, hmems⟩ := hj.flow
    obtain ⟨σ2, hfirst, hbecomes⟩ := hflow.leads hj.counted hj.lanes hdelivers (σ := σ1)
      ⟨fun t ht => (nomatch ht), fun w hw b hhome i hi => by
        obtain ⟨b', hhome', hb, hcells⟩ := hmems w hw
        rw [Option.some.inj (hhome.symm.trans hhome'), hσ b' hb]
        exact hcells i hi⟩
    have hσ2 : ∀ b, ¬T b → σ2.cells b = σ.cells b := by
      intro b hb
      rw [← hσ b hb]
      funext i
      exact (hbecomes b i).2 (hj.not_hits hb i)
    obtain ⟨σ', hrest, hbecomes'⟩ := ih (fun j' hj' => h j' (mem_cons_of_mem j hj')) hσ2
    refine ⟨σ', hfirst.append hrest, (hbecomes.trans hbecomes').congr fun b i => ?_⟩
    rw [exists_mem_cons_iff]

end Job

end KernelLoops
