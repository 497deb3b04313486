import KernelLoops.Builder
import KernelLoops.Proofs.Tidy

set_option autoImplicit false

/-! # Built kernels

A built kernel comes from an empty one by calls of a builder, each made with tensors that exist. A
call that fails leaves behind what it did until then, and building may go on. -/

namespace KernelLoops

open List

variable {k : Kernel} {b : Builder} {x : Expr} {l info : LoopInfo} {t : LoopTable} {f : Expr → Expr}
  {e : ExprId}
  {registers : List (TensorId × Int)} {srcs : List Tensor} {id : LoopId} {src : Tensor}

/-- One call of a builder. -/
inductive BuildStep
  | tensor (t : TensorType)
  | parameterOf (t : Tensor)
  | parameter (shape : List Amount)
  | constant (shape : List Amount)
  | load (src : Tensor)
  | broadcastLoad (src : Tensor)
  | scalar
  | elementwise (op : String) (srcs : List Tensor)
  | store (src : Tensor)
  | buffer (src : Tensor) (allocation : List Amount)
  | brgemm (a c : Tensor) (count : Amount)
  | result (src : Tensor)
  | setFill (e : ExprId) (port : Int) (value : UInt32)
  | loop (m : Option ExprId) (depth workAmount increment : Amount)
  | fakeLoop (m : Option ExprId) (depth : Amount)
deriving DecidableEq, Repr

namespace BuildStep

/-- Makes the call. -/
def run : BuildStep → Build Unit
  | tensor t => do let _ ← Build.edit (Edit.newTensor t)
  | parameterOf t => Build.parameterOf t
  | parameter shape => do let _ ← Build.parameter shape
  | constant shape => do let _ ← Build.constant shape
  | load src => do let _ ← Build.load src
  | broadcastLoad src => do let _ ← Build.broadcastLoad src
  | scalar => do let _ ← Build.scalar
  | elementwise op srcs => do let _ ← Build.elementwise op srcs
  | store src => do let _ ← Build.store src
  | buffer src allocation => do let _ ← Build.buffer src allocation
  | brgemm a c count => do let _ ← Build.brgemm a c count
  | result src => Build.result src
  | setFill e port value => Build.setFill e port value
  | loop m depth workAmount increment => do let _ ← Build.loop m depth workAmount increment
  | fakeLoop m depth => Build.fakeLoop m depth

/-- The tensors a call is made with. -/
def tensors : BuildStep → List Tensor
  | parameterOf t => [t]
  | load src | broadcastLoad src | store src | buffer src _ | result src => [src]
  | elementwise _ srcs => srcs
  | brgemm a c _ => [a, c]
  | _ => []

end BuildStep

/-- The builder of an empty kernel. -/
def Builder.start (config : Config) (elementType : ElementType) (depth count : Amount) : Builder :=
  { kernel := { config }, elementType, depth, count }

/-- What calls of a builder lead to. -/
inductive Built : Builder → Prop
  | start (config : Config) (elementType : ElementType) (depth count : Amount) :
      Built (.start config elementType depth count)
  | step {b : Builder} (s : BuildStep) (hb : Built b) (known : ∀ t ∈ s.tensors, t.id < b.kernel.nextTensor) :
      Built (endState (s.run b))

/-- The builder after a list of calls. -/
def Builder.after (b : Builder) (steps : List BuildStep) : Builder :=
  steps.foldl (fun b s => endState (s.run b)) b

/-- Is every call of a list made with tensors that exist by then? -/
def Builder.knows (b : Builder) : List BuildStep → Bool
  | [] => true
  | s :: rest => s.tensors.all (·.id < b.kernel.nextTensor) && (endState (s.run b)).knows rest

/-- A vector of a length, under a name. -/
def vector (n : Amount) (id : TensorId) : Tensor := { TensorType.planar .float32 [n] with id }

/-- A list of calls with tensors that exist builds. -/
theorem Built.after (hb : Built b) {steps : List BuildStep} (h : b.knows steps = true) :
    Built (b.after steps) := by
  induction steps generalizing b with
  | nil => exact hb
  | cons s rest ih =>
    rw [Builder.knows, Bool.and_eq_true, all_eq_true] at h
    exact ih (hb.step s fun t ht => of_decide_eq_true (h.1 t ht)) h.2

/-! ## Plain kernels -/

/-- Can a builder add an expression of this kind? -/
def OpKind.isBuilt : OpKind → Bool
  | parameter | constant | result | load | broadcastLoad | store | elementwise | scalar | brgemm
  | buffer => true
  | _ => false

/-- An expression the way a builder leaves it: of a kind it adds, with the operand its access goes
    to, and tagged with registered loops only. -/
structure Expr.Plain (loops : LoopTable) (x : Expr) : Prop where
  kind : x.kind.isBuilt = true
  source : x.kind = .load ∨ x.kind = .broadcastLoad → x.inputs ≠ []
  target : x.kind = .store ∨ x.kind = .brgemm → x.outputs ≠ []
  tags : ∀ id ∈ x.loopIds, id.isSentinel = false → (loops.get? id).isSome

theorem Expr.Plain.marker {loops : LoopTable} (h : x.Plain loops) : x.kind.isMarker = false := by
  have hbuilt := h.kind
  revert hbuilt
  cases x.kind <;> simp [OpKind.isBuilt, OpKind.isMarker]

/-- Only numbers below the next one name loops. -/
structure LoopTable.Numbered (t : LoopTable) : Prop where
  below : ∀ p ∈ t.entries, ∃ n < t.next, p.1 = Int.ofNat n

/-- Only numbers below the next one name loops, and no loop is cut into blocks. -/
structure LoopTable.Plain (t : LoopTable) : Prop extends t.Numbered where
  unsplit : ∀ p ∈ t.entries, p.2.split = false

/-- The loops go over the same dimension, and both are cut into blocks or neither is. -/
structure LoopInfo.Kin (i j : LoopInfo) : Prop where
  dim : i.dim = j.dim
  split : i.split = j.split

theorem LoopInfo.Kin.refl (i : LoopInfo) : i.Kin i := ⟨rfl, rfl⟩

theorem LoopInfo.Kin.trans {i j : LoopInfo} (h : i.Kin j) (h' : j.Kin l) : i.Kin l :=
  ⟨h.dim.trans h'.dim, h.split.trans h'.split⟩

namespace LoopTable

theorem get?_insert (t : LoopTable) (l : LoopInfo) (id : LoopId) :
    (t.insert l).2.get? id = (t.get? id).or (if id = t.next then some l else none) := by
  simp only [get?, insert, lookup_append, lookup_cons, lookup_nil]
  congr 1
  by_cases h : id = t.next
  · simp [h]
  · rw [if_neg h, beq_eq_false_iff_ne.2 h]

theorem get?_modify (t : LoopTable) (id i : LoopId) (f : LoopInfo → LoopInfo) :
    (t.modify id f).get? i = (t.get? i).map fun l => if i = id then f l else l := by
  simp only [get?, LoopTable.modify]
  induction t.entries with
  | nil => rfl
  | cons p rest ih =>
    obtain ⟨j, l⟩ := p
    simp only [map_cons, lookup_cons]
    cases hij : i == j with
    | true =>
      rw [beq_iff_eq] at hij
      subst hij
      rfl
    | false => exact ih

/-- Changing one loop leaves the others as they are. -/
theorem modify_frame (t : LoopTable) (id : LoopId) (f : LoopInfo → LoopInfo) :
    (∀ i, i ≠ id → (t.modify id f).get? i = t.get? i) ∧ ∀ i, (t.get? i).isSome → ((t.modify id f).get? i).isSome := by
  constructor
  · intro i hi
    simp [get?_modify, hi]
  · intro i hi
    rwa [get?_modify, Option.isSome_map]

theorem get?_modify_self (h : t.get? id = some info) (f : LoopInfo → LoopInfo) :
    (t.modify id f).get? id = some (f info) := by
  rw [get?_modify, h, Option.map_some, if_pos rfl]

/-- Changing the amounts of a loop keeps its kind. -/
theorem kin_modify {i : LoopId} {f : LoopInfo → LoopInfo} (hf : ∀ i, (f i).Kin i) {info' : LoopInfo}
    (h : (t.modify id f).get? i = some info') : ∃ info, t.get? i = some info ∧ info'.Kin info := by
  rw [get?_modify] at h
  obtain ⟨info, hinfo, rfl⟩ := Option.map_eq_some_iff.1 h
  refine ⟨info, hinfo, ?_⟩
  split
  · exact hf info
  · exact .refl info

theorem info_eq_ok : t.info id = .ok info ↔ t.get? id = some info := by
  unfold LoopTable.info
  split
  · next l hl => simp [hl]
  · next hl => simp [hl]

theorem isSome_get?_insert (l : LoopInfo) (h : (t.get? id).isSome) :
    ((t.insert l).2.get? id).isSome := by
  rw [get?_insert, Option.isSome_or, h, Bool.true_or]

/-- A registered loop has a number below the next one. -/
theorem Numbered.exists_lt (ht : t.Numbered) (h : (t.get? id).isSome) :
    ∃ n < t.next, id = Int.ofNat n := by
  obtain ⟨l, hl⟩ := Option.isSome_iff_exists.1 h
  obtain ⟨pre, post, hentries, -⟩ := lookup_eq_some_iff.1 hl
  exact ht.below (id, l) (by simp [hentries])

/-- A free number names no loop. -/
theorem Numbered.get?_next (ht : t.Numbered) : t.get? t.next = none := by
  rw [← Option.not_isSome_iff_eq_none]
  intro hsome
  obtain ⟨n, hn, hid⟩ := ht.exists_lt hsome
  exact absurd (Int.ofNat.inj hid) (Nat.ne_of_gt hn)

theorem Numbered.isSentinel (ht : t.Numbered) (h : (t.get? id).isSome) : id.isSentinel = false := by
  obtain ⟨n, -, rfl⟩ := ht.exists_lt h
  exact decide_eq_false (Int.not_lt.2 (Int.natCast_nonneg n))

/-- Registering a loop leaves the others as they are. -/
theorem get?_insert_of_isSome (l : LoopInfo) (h : (t.get? id).isSome) :
    (t.insert l).2.get? id = t.get? id := by
  rw [get?_insert, Option.or_of_isSome h]

theorem Numbered.get?_insert_next (ht : t.Numbered) (l : LoopInfo) :
    (t.insert l).2.get? t.next = some l := by
  rw [get?_insert, ht.get?_next, Option.none_or, if_pos rfl]

theorem Numbered.insert (ht : t.Numbered) (l : LoopInfo) : (t.insert l).2.Numbered where
  below p hp := by
    rcases mem_append.1 hp with hp | hp
    · obtain ⟨n, hn, hpn⟩ := ht.below p hp
      exact ⟨n, Nat.lt_succ_of_lt hn, hpn⟩
    · rw [mem_singleton.1 hp]
      exact ⟨t.next, Nat.lt_succ_self _, rfl⟩

theorem Numbered.modify (ht : t.Numbered) (id : LoopId) (f : LoopInfo → LoopInfo) :
    (t.modify id f).Numbered where
  below p hp := by
    obtain ⟨q, hq, rfl⟩ := mem_map.1 hp
    exact ht.below q hq

/-- No registered loop is cut into blocks. -/
theorem Plain.split_eq (ht : t.Plain) (h : t.get? id = some info) : info.split = false := by
  obtain ⟨pre, post, hentries, -⟩ := lookup_eq_some_iff.1 h
  exact ht.unsplit (id, info) (by simp [hentries])

theorem Plain.insert (ht : t.Plain) (hl : l.split = false) : (t.insert l).2.Plain where
  toNumbered := ht.toNumbered.insert l
  unsplit p hp := by
    rcases mem_append.1 hp with hp | hp
    · exact ht.unsplit p hp
    · rw [mem_singleton.1 hp]
      exact hl

end LoopTable

/-- If all inputs of the expression live in registers, it has one of each. -/
def Expr.Bound (registers : List (TensorId × Int)) (x : Expr) : Prop :=
  x.inRegs.length = x.inputs.length → ∀ (port : Nat) (t : Tensor), x.inputs[port]? = some t →
    ∃ r, x.inRegs[port]? = some r ∧ (t.id, r) ∈ registers

theorem Expr.Bound.mono {registers' : List (TensorId × Int)} (h : x.Bound registers)
    (hsub : registers ⊆ registers') :
    x.Bound registers' := by
  intro hall port t ht
  obtain ⟨r, hr, hmem⟩ := h hall port t ht
  exact ⟨r, hr, hsub hmem⟩

/-- The registers of those tensors that live in one, if all of them do. -/
theorem exists_register {ts : List Tensor}
    (hall : (ts.filterMap fun t => registers.lookup t.id).length = ts.length)
    {port : Nat} {t : Tensor} (ht : ts[port]? = some t) :
    ∃ r, (ts.filterMap fun t => registers.lookup t.id)[port]? = some r ∧ (t.id, r) ∈ registers := by
  induction ts generalizing port with
  | nil => cases ht
  | cons u ts ih =>
    have hle := length_filterMap_le (fun t : Tensor => registers.lookup t.id) ts
    cases hu : registers.lookup u.id with
    | none =>
      simp only [filterMap_cons, hu, length_cons] at hall
      omega
    | some r =>
      simp only [filterMap_cons, hu] at hall ⊢
      cases port with
      | zero =>
        cases ht
        obtain ⟨pre, post, hregs, -⟩ := lookup_eq_some_iff.1 hu
        exact ⟨r, rfl, by simp [hregs]⟩
      | succ port => exact ih (Nat.succ.inj hall) ht

/-- Every expression whose inputs all live in registers has one of each. -/
def Kernel.Bound (registers : List (TensorId × Int)) (k : Kernel) : Prop :=
  ∀ x ∈ k.sequence, x.Bound registers

/-- A kernel the way a builder leaves it. -/
structure Kernel.Plain (k : Kernel) : Prop where
  lists : k.Lists k.sequence
  exprs : ∀ x ∈ k.sequence, x.Plain k.loops
  loops : k.loops.Plain

namespace Kernel.Plain

variable {k' : Kernel}

/-- A list of plain expressions makes a kernel plain. -/
theorem of_lists {xs : List Expr} (h : k.Lists xs) (hx : ∀ x ∈ xs, x.Plain k.loops)
    (hl : k.loops.Plain) : k.Plain :=
  ⟨h.sequence ▸ h, h.sequence ▸ hx, hl⟩

theorem empty (config : Config) : ({ config } : Kernel).Plain :=
  of_lists (.nil config) (by simp) ⟨⟨by simp⟩, by simp⟩

/-- What holds of all expressions still does once one of them is changed to another with the same
    number and operands. -/
theorem forall_modify (h : k.Lists k.sequence) {P : Expr → Prop} (hP : ∀ x ∈ k.sequence, P x)
    (id : (f (k.expr e)).id = (k.expr e).id) (inputs : (f (k.expr e)).inputs = (k.expr e).inputs)
    (outputs : (f (k.expr e)).outputs = (k.expr e).outputs) (hf : P (k.expr e) → P (f (k.expr e))) :
    let k' : Kernel := { k with exprs := k.exprs.modify e f }
    k'.Lists k'.sequence ∧ ∀ x ∈ k'.sequence, P x := by
  intro k'
  by_cases he : ∃ x ∈ k.sequence, x.id = e
  · obtain ⟨x, hx, rfl⟩ := he
    obtain ⟨pre, post, hsplit⟩ := append_of_mem hx
    have hlists := h
    rw [hlists.read x hx] at id inputs outputs hf
    rw [hsplit] at hlists hP
    have hlists' := hlists.modify id inputs outputs
    rw [hlists'.sequence]
    refine ⟨hlists', fun y hy => ?_⟩
    rcases Lists.mem_middle.1 hy with rfl | hy
    · exact hf (hP x (by simp))
    · exact hP y (Lists.mem_middle.2 (.inr hy))
  · push Not at he
    have hlists' := h.modify_other f he
    rw [hlists'.sequence]
    exact ⟨hlists', hP⟩

/-- Changing an expression to one that is plain too, with the same number and operands. -/
theorem modify (hk : k.Plain) (id : (f (k.expr e)).id = (k.expr e).id)
    (inputs : (f (k.expr e)).inputs = (k.expr e).inputs) (outputs : (f (k.expr e)).outputs = (k.expr e).outputs)
    (plain : (k.expr e).Plain k.loops → (f (k.expr e)).Plain k.loops) :
    ({ k with exprs := k.exprs.modify e f } : Kernel).Plain := by
  obtain ⟨hlists, hexprs⟩ := forall_modify hk.lists hk.exprs id inputs outputs plain
  exact ⟨hlists, hexprs, hk.loops⟩

/-- An expression that was just made can be added at the end. -/
theorem append (hk : k.Plain) {y : Expr} (hid : y.id = k.exprs.size) (hy : y.Plain k.loops)
    (hknown : ∀ t, t ∈ y.inputs ∨ t ∈ y.outputs → t.id < k.nextTensor) :
    Edit.append y.id { k with exprs := k.exprs.push y } = .ok () (k.added y none) ∧ (k.added y none).Plain ∧
      (k.added y none).sequence = k.sequence ++ [y] := by
  have hlists : k.Lists (k.sequence ++ []) := (append_nil k.sequence).symm ▸ hk.lists
  obtain ⟨hrun, hplaced⟩ := hlists.added hid hknown
  refine ⟨hrun, of_lists hplaced (fun x hx => ?_) hk.loops, hplaced.sequence⟩
  rcases mem_append.1 hx with hx | hx
  · exact hk.exprs x hx
  · exact mem_singleton.1 hx ▸ hy

/-- A new loop. -/
theorem addLoop (hk : k.Plain) (hl : l.split = false) :
    ({ k with loops := (k.loops.insert l).2 } : Kernel).Plain := by
  have hlists : ({ k with loops := (k.loops.insert l).2 } : Kernel).Lists k.sequence :=
    hk.lists.congr rfl rfl rfl (Nat.le_refl _) (Nat.le_refl _) fun _ _ => rfl
  refine of_lists hlists (fun x hx => ?_) (hk.loops.insert hl)
  have hx := hk.exprs x hx
  exact ⟨hx.kind, hx.source, hx.target, fun id hmem hs => LoopTable.isSome_get?_insert l (hx.tags id hmem hs)⟩

/-- Tagging with a loop that is registered, or with none. -/
theorem setLoopId (hk : k.Plain) (e : ExprId) (depth : Amount)
    (hid : id.isSentinel = false → (k.loops.get? id).isSome) :
    (endState (Edit.setLoopId e id depth k)).Plain ∧
      (endState (Edit.setLoopId e id depth k)).loops = k.loops ∧
      ∀ registers, k.Bound registers → (endState (Edit.setLoopId e id depth k)).Bound registers := by
  unfold Edit.setLoopId Edit.updateExpr
  cases h : (k.expr e).withLoopId id depth with
  | error f =>
    rw [bind_run_error (Edit.ask_run_error h)]
    exact ⟨hk, rfl, fun _ h => h⟩
  | ok x =>
    rw [bind_run_ok (Edit.ask_run_ok h)]
    unfold Expr.withLoopId at h
    split at h
    · cases h
      refine ⟨?_, rfl, fun _ hbound => (forall_modify hk.lists hbound rfl rfl rfl fun hx => hx).2⟩
      refine hk.modify rfl rfl rfl fun hx => ⟨hx.kind, hx.source, hx.target, fun i hi hs => ?_⟩
      rcases mem_or_eq_of_mem_set hi with hi | rfl
      · exact hx.tags i hi hs
      · exact hid hs
    · cases h

end Kernel.Plain

/-! ## What building keeps -/

/-- What the first kernel lists the second lists too, with the same operands and tags. More has come
    behind it that no loop covers, and the loops are the same. -/
structure Kernel.Continues (k k' : Kernel) : Prop where
  order : k.order <+: k'.order
  produced : k.produced <+: k'.produced
  inputs : ∀ e ∈ k.order, (k'.expr e).inputs = (k.expr e).inputs
  outputs : ∀ e ∈ k.order, (k'.expr e).outputs = (k.expr e).outputs
  loopIds : ∀ e ∈ k.order, (k'.expr e).loopIds = (k.expr e).loopIds
  blank : ∀ e ∈ k'.order, e ∉ k.order → ∀ id ∈ (k'.expr e).loopIds, id = LoopId.null
  loops : k'.loops = k.loops

namespace Kernel.Continues

variable {k0 : Kernel}

theorem refl (k : Kernel) : k.Continues k :=
  ⟨prefix_rfl, prefix_rfl, fun _ _ => rfl, fun _ _ => rfl, fun _ _ => rfl, fun _ h h' => absurd h h', rfl⟩

theorem modify (h : k0.Continues k) (inputs : (f (k.expr e)).inputs = (k.expr e).inputs)
    (outputs : (f (k.expr e)).outputs = (k.expr e).outputs) (loopIds : (f (k.expr e)).loopIds = (k.expr e).loopIds) :
    k0.Continues { k with exprs := k.exprs.modify e f } :=
  ⟨h.order, h.produced, fun i hi => (field_modify _ inputs i).trans (h.inputs i hi),
    fun i hi => (field_modify _ outputs i).trans (h.outputs i hi),
    fun i hi => (field_modify _ loopIds i).trans (h.loopIds i hi),
    fun i hi hnew => (field_modify Expr.loopIds loopIds i).symm ▸ h.blank i hi hnew, h.loops⟩

theorem append {y : Expr} (h : k0.Continues k) (hk : k.Plain) (hid : y.id = k.exprs.size)
    (hy : ∀ id ∈ y.loopIds, id = LoopId.null) :
    k0.Continues (k.added y none) := by
  have hread (i : ExprId) : (k.added y none).expr i = if i = k.exprs.size then y else k.expr i := expr_push k y i
  have hold : ∀ i ∈ k.order, i ≠ k.exprs.size := fun i hi => by
    obtain ⟨x, hx, rfl⟩ := hk.lists.mem_order.1 hi
    exact Nat.ne_of_lt (hk.lists.made x hx)
  have hkeep : ∀ i ∈ k0.order, (k.added y none).expr i = k.expr i := fun i hi => by
    rw [hread, if_neg (hold i (h.order.subset hi))]
  refine ⟨h.order.trans (prefix_append _ _), h.produced.trans (prefix_append _ _), fun i hi => ?_,
    fun i hi => ?_, fun i hi => ?_, fun i hi hnew => ?_, h.loops⟩
  · rw [hkeep i hi, h.inputs i hi]
  · rw [hkeep i hi, h.outputs i hi]
  · rw [hkeep i hi, h.loopIds i hi]
  · rw [hread]
    rcases mem_append.1 hi with hi | hi
    · rw [if_neg (hold i hi)]
      exact h.blank i hi hnew
    · rw [if_pos ((mem_singleton.1 hi).trans hid)]
      exact hy

end Kernel.Continues

namespace Build

/-- The kernel under construction is plain, its first `n` tensors exist, it has the registers given
    so far, and it continues the kernel `k0`. -/
structure Plain (k0 : Kernel) (n : TensorId) (b : Builder) : Prop where
  kernel : b.kernel.Plain
  named : n ≤ b.kernel.nextTensor
  bound : b.kernel.Bound b.registers
  continues : k0.Continues b.kernel

variable {k0 : Kernel} {n : TensorId} {α β : Type}

theorem keeps_edit {P : Builder → Prop} {step : Edit α}
    (h : ∀ b, P b → P { b with kernel := endState (step b.kernel) }) : Keeps P (edit step) := by
  intro b hb
  have hend := h b hb
  unfold edit
  cases hr : step b.kernel <;> (rw [hr] at hend; exact hend)

/-- What follows the making of a tensor may use it. -/
theorem plain_newTensor {t : TensorType} {rest : Tensor → Build β}
    (h : ∀ m, n ≤ m → Keeps (Plain k0 (m + 1)) (rest { t with id := m })) :
    Keeps (Plain k0 n) (edit (Edit.newTensor t) >>= rest) := by
  intro b hb
  let b' : Builder := { b with kernel := { b.kernel with nextTensor := b.kernel.nextTensor + 1 } }
  have hlists : b'.kernel.Lists b.kernel.sequence :=
    hb.kernel.lists.congr rfl rfl rfl (Nat.le_refl _) (Nat.le_succ _) fun _ _ => rfl
  have hb' : Plain k0 (b.kernel.nextTensor + 1) b' :=
    ⟨.of_lists hlists hb.kernel.exprs hb.kernel.loops, Nat.le_refl _, hb.bound, { hb.continues with }⟩
  have hr := h b.kernel.nextTensor hb.named b' hb'
  exact ⟨hr.kernel, Nat.le_trans (Nat.le_succ_of_le hb.named) hr.named, hr.bound, hr.continues⟩

theorem plain_modifyExpr (hb : Plain k0 n b) (id : (f (b.kernel.expr e)).id = (b.kernel.expr e).id)
    (kind : (f (b.kernel.expr e)).kind = (b.kernel.expr e).kind)
    (inputs : (f (b.kernel.expr e)).inputs = (b.kernel.expr e).inputs)
    (outputs : (f (b.kernel.expr e)).outputs = (b.kernel.expr e).outputs)
    (loopIds : (f (b.kernel.expr e)).loopIds = (b.kernel.expr e).loopIds)
    (bound : (b.kernel.expr e).Bound b.registers → (f (b.kernel.expr e)).Bound b.registers) :
    Plain k0 n (endState (edit (Edit.modifyExpr e f) b)) := by
  refine ⟨hb.kernel.modify id inputs outputs fun hx => ⟨?_, ?_, ?_, ?_⟩, hb.named,
    (Kernel.Plain.forall_modify hb.kernel.lists hb.bound id inputs outputs bound).2,
    hb.continues.modify inputs outputs loopIds⟩
  · rw [kind]
    exact hx.kind
  · rw [kind, inputs]
    exact hx.source
  · rw [kind, outputs]
    exact hx.target
  · rw [loopIds]
    exact hx.tags

theorem plain_add {kind : OpKind} {inputs outputs : List Tensor} (op : String)
    (hkind : kind.isBuilt = true)
    (source : kind = .load ∨ kind = .broadcastLoad → inputs ≠ [])
    (target : kind = .store ∨ kind = .brgemm → outputs ≠ [])
    (known : ∀ t, t ∈ inputs ∨ t ∈ outputs → t.id < n) :
    Keeps (Plain k0 n) (add kind op inputs outputs) := by
  refine .get_bind fun c _ => keeps_edit fun b hb => ?_
  rw [bind_run, Edit.newExpr_run]
  cases storage 8 c.depth with
  | error f => exact hb
  | ok levels =>
    let k := b.kernel
    let y : Expr :=
      { id := k.exprs.size, kind, op, inputs, outputs, loopIds := replicate levels LoopId.null }
    have hblank : ∀ id ∈ y.loopIds, id = LoopId.null := fun id hid => eq_of_mem_replicate hid
    have hy : y.Plain k.loops := by
      refine ⟨hkind, source, target, fun id hid hsent => ?_⟩
      rw [hblank id hid] at hsent
      exact absurd hsent (by decide)
    have hknown : ∀ t, t ∈ y.inputs ∨ t ∈ y.outputs → t.id < k.nextTensor :=
      fun t ht => Nat.lt_of_lt_of_le (known t ht) hb.named
    obtain ⟨hrun, hplain, hsequence⟩ := hb.kernel.append rfl hy hknown
    have hend : ∀ r : EStateM.Result Failure Kernel ExprId, r = .ok y.id (k.added y none) →
        Plain k0 n { b with kernel := endState r } := by
      rintro _ rfl
      refine ⟨hplain, hb.named, fun x hx => ?_, hb.continues.append hb.kernel rfl hblank⟩
      rcases mem_append.1 (hsequence ▸ hx) with hx | hx
      · exact hb.bound x hx
      · -- it has no registers yet
        rw [mem_singleton.1 hx]
        intro hall port t ht
        rw [length_eq_zero_iff.1 hall.symm] at ht
        cases ht
    exact hend _ (bind_run_ok hrun)

theorem plain_setCount (e : ExprId) (count : Amount) : Keeps (Plain k0 n) (setCount e count) :=
  fun _ hb =>
  plain_modifyExpr hb rfl rfl rfl rfl rfl fun h => h

theorem plain_bindInputs (e : ExprId) : Keeps (Plain k0 n) (bindInputs e) := fun _ hb =>
  plain_modifyExpr hb rfl rfl rfl rfl rfl fun _ hall _ _ ht => exists_register hall ht

theorem plain_bindOutputs (e : ExprId) : Keeps (Plain k0 n) (bindOutputs e) := by
  refine .get_bind fun _ _ => .forM (fun t => .get_bind fun b _ => ?_) _
  refine .bind (.modify fun _ hb => ⟨hb.kernel, hb.named, fun x hx => ?_, hb.continues⟩) fun _ _ hb => ?_
  · exact Expr.Bound.mono (hb.bound x hx) (subset_cons_self _ _)
  · exact plain_modifyExpr hb rfl rfl rfl rfl rfl fun h => h

/-! ## Expressions -/

/-- The tensors of an expression that reads some and makes one more. -/
theorem known_cons {m : TensorId} {out : Tensor} (hm : n ≤ m) (hsrcs : ∀ t ∈ srcs, t.id < n)
    (hout : out.id = m) :
    ∀ t, t ∈ srcs ∨ t ∈ [out] → t.id < m + 1 := by
  rintro t (ht | ht)
  · exact Nat.lt_succ_of_lt (Nat.lt_of_lt_of_le (hsrcs t ht) hm)
  · rw [mem_singleton.1 ht, hout]
    exact Nat.lt_succ_self m

theorem plain_parameterOf {t : Tensor} (ht : t.id < n) : Keeps (Plain k0 n) (parameterOf t) := by
  refine .bind (plain_add _ rfl (by simp) (by simp) fun u hu => ?_) fun _ => .pure _
  simp only [not_mem_nil, mem_singleton, false_or] at hu
  exact hu ▸ ht

theorem plain_parameter (shape : List Amount) : Keeps (Plain k0 n) (parameter shape) := by
  refine .get_bind fun b _ => plain_newTensor fun m _ => ?_
  exact .bind (plain_parameterOf (Nat.lt_succ_self m)) fun _ => .pure _

theorem plain_constant (shape : List Amount) : Keeps (Plain k0 n) (constant shape) := by
  refine .get_bind fun b _ => plain_newTensor fun m hm => ?_
  exact .bind (plain_add _ rfl (by simp) (by simp) (known_cons hm (by simp) rfl)) fun _ => .pure _

theorem plain_load (hsrc : src.id < n) : Keeps (Plain k0 n) (load src) := by
  refine plain_newTensor fun m hm => .bind (plain_add _ rfl (by simp) (by simp) ?_) fun e => ?_
  · exact known_cons hm (by simpa using hsrc) rfl
  refine .get_bind fun _ _ => .bind (plain_setCount _ _) fun _ => ?_
  exact .bind (plain_bindInputs e) fun _ => .bind (plain_bindOutputs e) fun _ => .pure _

theorem plain_broadcastLoad (hsrc : src.id < n) : Keeps (Plain k0 n) (broadcastLoad src) := by
  refine plain_newTensor fun m hm => .bind (plain_add _ rfl (by simp) (by simp) ?_) fun e => ?_
  · exact known_cons hm (by simpa using hsrc) rfl
  refine .bind (plain_setCount _ _) fun _ => ?_
  exact .bind (plain_bindInputs e) fun _ => .bind (plain_bindOutputs e) fun _ => .pure _

theorem plain_scalar : Keeps (Plain k0 n) scalar := by
  refine .get_bind fun b _ => plain_newTensor fun m hm => ?_
  refine .bind (plain_add _ rfl (by simp) (by simp) (known_cons hm (by simp) rfl)) fun e => ?_
  exact .bind (plain_bindInputs e) fun _ => .bind (plain_bindOutputs e) fun _ => .pure _

theorem plain_elementwise {op : String} (hsrcs : ∀ t ∈ srcs, t.id < n) :
    Keeps (Plain k0 n) (elementwise op srcs) := by
  cases srcs with
  | nil => exact .throw _
  | cons t ts =>
    refine plain_newTensor fun m hm => .bind (plain_add _ rfl (by simp) (by simp) ?_) fun e => ?_
    · exact known_cons hm hsrcs rfl
    exact .bind (plain_bindInputs e) fun _ => .bind (plain_bindOutputs e) fun _ => .pure _

theorem plain_store (hsrc : src.id < n) : Keeps (Plain k0 n) (store src) := by
  refine plain_newTensor fun m hm => .bind (plain_add _ rfl (by simp) (by simp) ?_) fun e => ?_
  · exact known_cons hm (by simpa using hsrc) rfl
  refine .get_bind fun _ _ => .bind (plain_setCount _ _) fun _ => ?_
  exact .bind (plain_bindInputs e) fun _ => .pure _

theorem plain_buffer (allocation : List Amount) (hsrc : src.id < n) :
    Keeps (Plain k0 n) (buffer src allocation) := by
  refine plain_newTensor fun m hm => .bind (plain_add _ rfl (by simp) (by simp) ?_) fun e => ?_
  · exact known_cons hm (by simpa using hsrc) rfl
  exact .bind (fun _ hb => plain_modifyExpr hb rfl rfl rfl rfl rfl fun h => h) fun _ => .pure _

theorem plain_brgemm {a c : Tensor} (count : Amount) (ha : a.id < n) (hc : c.id < n) :
    Keeps (Plain k0 n) (brgemm a c count) := by
  unfold brgemm
  split
  · refine plain_newTensor fun m hm => .bind (plain_add _ rfl (by simp) (by simp) ?_) fun e => ?_
    · exact known_cons hm (by simpa using ⟨ha, hc⟩) rfl
    exact .bind (plain_setCount _ _) fun _ => .pure _
  · exact .throw _

theorem plain_result (hsrc : src.id < n) : Keeps (Plain k0 n) (result src) := by
  refine .bind (plain_add _ rfl (by simp) (by simp) fun u hu => ?_) fun _ => .pure _
  simp only [not_mem_nil, mem_singleton, or_false] at hu
  exact hu ▸ hsrc

theorem plain_setFill (e : ExprId) (port : Int) (value : UInt32) :
    Keeps (Plain k0 n) (setFill e port value) := by
  exact .get_bind fun _ _ => .ite (.throw _) fun _ hb => plain_modifyExpr hb rfl rfl rfl rfl rfl fun h => h

/-! ## Loops -/

/-- Tagging many expressions with one loop. -/
theorem plain_forM_setLoopId (depth : Amount) (es : List ExprId) (hk : k.Plain)
    (hid : id.isSentinel = false → (k.loops.get? id).isSome) :
    (endState (es.forM (fun e => Edit.setLoopId e id depth) k)).Plain ∧
      ∀ registers, k.Bound registers → (endState (es.forM (fun e => Edit.setLoopId e id depth) k)).Bound registers := by
  let P : Kernel → Prop := fun k' => k'.Plain ∧ k'.loops = k.loops ∧
    ∀ registers, k.Bound registers → k'.Bound registers
  have hstep : Keeps P (es.forM fun e => Edit.setLoopId e id depth) := by
    refine .forM (fun e k' hk' => ?_) es
    obtain ⟨hplain, hloops, hbound⟩ := hk'
    obtain ⟨h, hl, hb⟩ := hplain.setLoopId e depth (by rwa [hloops])
    exact ⟨h, hl.trans hloops, fun registers h => hb registers (hbound registers h)⟩
  obtain ⟨h, -, hb⟩ := hstep k ⟨hk, rfl, fun _ h => h⟩
  exact ⟨h, hb⟩

theorem plain_markLoop (start stop : Option ExprId) (depth workAmount increment dim : Amount)
    (hk : k.Plain) :
    (endState (Edit.markLoop start stop depth workAmount increment dim k)).Plain ∧
      ∀ registers, k.Bound registers →
        (endState (Edit.markLoop start stop depth workAmount increment dim k)).Bound registers := by
  unfold Edit.markLoop
  rw [get_bind_run]
  cases k.range? start stop with
  | none => exact ⟨hk, fun _ h => h⟩
  | some range =>
    let l : LoopInfo :=
      { workAmount, increment, dim, entries := k.entriesOf range, exits := k.exitsOf range }
    let k' : Kernel := { k with loops := (k.loops.insert l).2 }
    have hid : (k'.loops.get? k.loops.next).isSome := by
      simp [k', LoopTable.insert, LoopTable.get?, lookup_append]
    have hmarked := plain_forM_setLoopId depth range (hk.addLoop rfl : k'.Plain) fun _ => hid
    let tag : Edit LoopId := do
      range.forM fun e => Edit.setLoopId e (k.loops.next : LoopId) depth
      return (k.loops.next : LoopId)
    show (endState (tag k')).Plain ∧ ∀ registers, k'.Bound registers → (endState (tag k')).Bound registers
    unfold tag
    rw [bind_run]
    revert hmarked
    cases range.forM (fun e => Edit.setLoopId e (k.loops.next : LoopId) depth) k' with
    | ok a k'' => exact fun hmarked => hmarked
    | error f k'' => exact fun hmarked => hmarked

/-- The kernel under construction is plain and has the registers given so far. -/
def Sound (b : Builder) : Prop := b.kernel.Plain ∧ b.kernel.Bound b.registers

theorem sound_loop (m : Option ExprId) (depth workAmount increment : Amount) :
    Keeps Sound (loop m depth workAmount increment) := by
  refine .get_bind fun b _ => ?_
  split
  · exact .throw _
  · refine keeps_edit fun c hc => ?_
    obtain ⟨hplain, hbound⟩ := plain_markLoop _ _ depth workAmount increment (b.depth - 1 - depth) hc.1
    exact ⟨hplain, hbound _ hc.2⟩

theorem sound_fakeLoop (m : Option ExprId) (depth : Amount) : Keeps Sound (fakeLoop m depth) := by
  refine .get_bind fun b _ => .forM (fun e => keeps_edit fun c hc => ?_) _
  obtain ⟨hplain, -, hbound⟩ :=
    hc.1.setLoopId e depth fun hs => absurd hs (by decide : LoopId.isSentinel LoopId.fake ≠ false)
  exact ⟨hplain, hbound _ hc.2⟩

end Build

/-- Is the call one for a loop? -/
def BuildStep.tags : BuildStep → Bool
  | loop .. | fakeLoop .. => true
  | _ => false

/-- A call with tensors that exist, other than one for a loop, keeps a kernel plain and continues
    it. -/
theorem BuildStep.keeps_plain {s : BuildStep} {k0 : Kernel} {n : TensorId} (hs : s.tags = false)
    (known : ∀ t ∈ s.tensors, t.id < n) : Keeps (Build.Plain k0 n) s.run := by
  cases s with
  | tensor t => exact Build.plain_newTensor fun m hm => fun b hb => hb
  | parameterOf t => exact Build.plain_parameterOf (known t (by simp [tensors]))
  | parameter shape => exact .bind (Build.plain_parameter shape) fun _ => .pure _
  | constant shape => exact .bind (Build.plain_constant shape) fun _ => .pure _
  | load src => exact .bind (Build.plain_load (known src (by simp [tensors]))) fun _ => .pure _
  | broadcastLoad src =>
    exact .bind (Build.plain_broadcastLoad (known src (by simp [tensors]))) fun _ => .pure _
  | scalar => exact .bind Build.plain_scalar fun _ => .pure _
  | elementwise op srcs => exact .bind (Build.plain_elementwise known) fun _ => .pure _
  | store src => exact .bind (Build.plain_store (known src (by simp [tensors]))) fun _ => .pure _
  | buffer src allocation =>
    exact .bind (Build.plain_buffer allocation (known src (by simp [tensors]))) fun _ => .pure _
  | brgemm a c count =>
    have ha := known a (by simp [tensors])
    have hc := known c (by simp [tensors])
    exact .bind (Build.plain_brgemm count ha hc) fun _ => .pure _
  | result src => exact Build.plain_result (known src (by simp [tensors]))
  | setFill e port value => exact Build.plain_setFill e port value
  | loop => cases hs
  | fakeLoop => cases hs

/-- A call with tensors that exist keeps a kernel plain. -/
theorem BuildStep.plain_run (s : BuildStep) (hb : b.kernel.Plain)
    (hbound : b.kernel.Bound b.registers)
    (known : ∀ t ∈ s.tensors, t.id < b.kernel.nextTensor) :
    (endState (s.run b)).kernel.Plain ∧ (endState (s.run b)).kernel.Bound (endState (s.run b)).registers := by
  cases hs : s.tags with
  | false =>
    have hend := keeps_plain hs known b ⟨hb, Nat.le_refl _, hbound, .refl b.kernel⟩
    exact ⟨hend.kernel, hend.bound⟩
  | true =>
    cases s with
    | loop m depth workAmount increment =>
      exact (Keeps.bind (Build.sound_loop m depth workAmount increment) fun _ => .pure _) b ⟨hb, hbound⟩
    | fakeLoop m depth => exact Build.sound_fakeLoop m depth b ⟨hb, hbound⟩
    | _ => cases hs

/-- Built kernels are plain, and their expressions have the registers that the builder gave to their
    inputs. -/
theorem Built.plain_bound (h : Built b) : b.kernel.Plain ∧ b.kernel.Bound b.registers := by
  induction h with
  | start config elementType depth count =>
    refine ⟨.empty config, fun x hx => ?_⟩
    rw [show (Builder.start config elementType depth count).kernel.sequence = [] from rfl] at hx
    cases hx
  | step s _ known ih => exact s.plain_run ih.1 ih.2 known

theorem Built.plain (h : Built b) : b.kernel.Plain := h.plain_bound.1

end KernelLoops
