import KernelLoops.Proofs.Copying
import KernelLoops.Proofs.TakingIn

set_option autoImplicit false

/-! # What builder calls add

A builder call makes tensors and adds one expression at the end of the list; registers do not show
there. A call for a loop tags the end of the list and reads the boundary of the loop off the data
flow. -/

namespace KernelLoops

open List

/-- The builder goes on from `s`: it has listed `xs`, registered `loops` and named `n` tensors. -/
structure Building (s : Builder) (xs : List Expr) (loops : LoopTable) (n : TensorId) (b : Builder) :
    Prop where
  lists : b.kernel.Lists xs
  loops : b.kernel.loops = loops
  next : b.kernel.nextTensor = n
  config : b.kernel.config = s.kernel.config
  elementType : b.elementType = s.elementType
  depth : b.depth = s.depth
  count : b.count = s.count

/-- An expression of a kind, with operands, that fills nothing and lies in no loop at any of `d`
    levels. -/
structure Expr.Blank (x : Expr) (kind : OpKind) (inputs outputs : List Tensor) (d : Nat) : Prop where
  kind : x.kind = kind
  inputs : x.inputs = inputs
  outputs : x.outputs = outputs
  loopIds : x.loopIds = replicate d LoopId.null
  fills : x.fills = []

namespace Building

open Build

variable {s b : Builder} {xs : List Expr} {x : Expr} {loops : LoopTable} {n : TensorId} {d : Nat}
  {c : Amount}

theorem start (config : Config) (elementType : ElementType) (depth count : Amount) :
    let s := Builder.start config elementType depth count
    Building s [] {} 0 s :=
  ⟨.nil config, rfl, rfl, rfl, rfl, rfl, rfl⟩

theorem newTensor (h : Building s xs loops n b) (t : TensorType) :
    ∃ b', edit (Edit.newTensor t) b = .ok { t with id := n } b' ∧ Building s xs loops (n + 1) b' := by
  have hname : ({ t with id := b.kernel.nextTensor } : Tensor) = { t with id := n } := by rw [h.next]
  refine ⟨{ b with kernel := { b.kernel with nextTensor := b.kernel.nextTensor + 1 } }, ?_, ?_⟩
  · rw [← hname]
    rfl
  · exact { h with
      lists := h.lists.congr rfl rfl rfl (Nat.le_refl _) (Nat.le_succ _) fun _ _ => rfl
      next := congrArg Nat.succ h.next }

/-- An expression goes to the end of the list. -/
theorem add (h : Building s xs loops n b) (hdepth : storage 8 s.depth = .ok d) (kind : OpKind)
    (op : String)
    (inputs outputs : List Tensor) (hknown : ∀ t, t ∈ inputs ∨ t ∈ outputs → t.id < n) :
    ∃ x b', add kind op inputs outputs b = .ok x.id b' ∧ Building s (xs ++ [x]) loops n b' ∧
      x.Blank kind inputs outputs d ∧ x.op = op := by
  let k := b.kernel
  let y : Expr := { id := k.exprs.size, kind, op, inputs, outputs, loopIds := replicate d LoopId.null }
  have hlists : k.Lists (xs ++ []) := (append_nil xs).symm ▸ h.lists
  obtain ⟨hrun, hadded⟩ := hlists.added (y := y) rfl (h.next.symm ▸ hknown)
  refine ⟨y, { b with kernel := k.added y none }, ?_, ?_, ⟨rfl, rfl, rfl, rfl, rfl⟩, rfl⟩
  · have hnew : Edit.newExpr kind op inputs outputs b.depth k = .ok y.id { k with exprs := k.exprs.push y } := by
      rw [Edit.newExpr_run, h.depth, hdepth]
    have hedit : (do
        let e ← Edit.newExpr kind op inputs outputs b.depth
        Edit.append e
        return e : Edit ExprId) k = .ok y.id (k.added y none) := by
      rw [bind_run_ok hnew, bind_run_ok (show Edit.append y.id _ = .ok () (k.added y none) from hrun)]
      rfl
    show edit _ b = _
    rw [edit, hedit]
  · exact { h with lists := hadded }

section

variable (h : Building s (xs ++ [x]) loops n b)

include h

/-- The last expression is changed in anything but its number and its operands. -/
theorem modify {f : Expr → Expr} (id : (f x).id = x.id)
    (inputs : (f x).inputs = x.inputs) (outputs : (f x).outputs = x.outputs) :
    ∃ b', edit (Edit.modifyExpr x.id f) b = .ok ⟨⟩ b' ∧ Building s (xs ++ [f x]) loops n b' :=
  ⟨{ b with kernel := { b.kernel with exprs := b.kernel.exprs.modify x.id f } }, rfl,
    { h with lists := h.lists.modify id inputs outputs }⟩

theorem expr_last : b.kernel.expr x.id = x :=
  h.lists.read x (mem_append_right _ (mem_singleton_self x))

/-- Registers of inputs do not show. -/
theorem bindInputs :
    ∃ regs b', bindInputs x.id b = .ok ⟨⟩ b' ∧ Building s (xs ++ [{ x with inRegs := regs }]) loops n b' := by
  let regs := (b.kernel.expr x.id).inputs.filterMap fun t => b.registers.lookup t.id
  obtain ⟨b', hrun, h'⟩ := h.modify (f := fun x => { x with inRegs := regs }) rfl rfl rfl
  exact ⟨regs, b', (get_bind_run _ b).trans hrun, h'⟩

/-- Registers of an output do not show. -/
theorem bindOutputs {t : Tensor} (ht : x.outputs = [t]) :
    ∃ regs b', bindOutputs x.id b = .ok ⟨⟩ b' ∧ Building s (xs ++ [{ x with outRegs := regs }]) loops n b' := by
  let reg := b.nextRegister
  let b1 : Builder := { b with registers := (t.id, reg) :: b.registers, nextRegister := reg + 1 }
  have h1 : Building s (xs ++ [x]) loops n b1 := { h with }
  obtain ⟨b', hrun, h'⟩ := h1.modify (f := fun x => { x with outRegs := x.outRegs ++ [reg] }) rfl rfl rfl
  refine ⟨x.outRegs ++ [reg], b', ?_, h'⟩
  unfold Build.bindOutputs
  rw [get_bind_run, h.expr_last, ht]
  exact bind_run_ok ((get_bind_run _ b).trans ((modify_bind_run _ _ b).trans hrun))

end

/-! ## Expressions -/

theorem parameter (h : Building s xs loops n b) (hdepth : storage 8 s.depth = .ok d)
    (shape : List Amount) :
    let t : Tensor := { TensorType.planar s.elementType shape with id := n }
    ∃ x b', parameter shape b = .ok t b' ∧ Building s (xs ++ [x]) loops (n + 1) b' ∧ x.Blank .parameter [] [t] d := by
  intro t
  obtain ⟨b1, hnew, h1⟩ := h.newTensor (.planar s.elementType shape)
  obtain ⟨x, b2, hadd, h2, hx, -⟩ := h1.add hdepth .parameter "Parameter" [] [t]
    (known_cons (Nat.le_refl n) (fun _ ht => nomatch ht) rfl)
  refine ⟨x, b2, ?_, h2, hx⟩
  unfold Build.parameter
  rw [get_bind_run, h.elementType, bind_run_ok hnew]
  exact bind_run_ok (bind_run_ok hadd)

theorem setCount (h : Building s (xs ++ [x]) loops n b) (count : Amount) :
    ∃ b', setCount x.id count b = .ok ⟨⟩ b' ∧ Building s (xs ++ [{ x with count }]) loops n b' :=
  h.modify (f := fun x => { x with count }) rfl rfl rfl

variable (h : Building s xs loops n b)

include h

section

variable (hdepth : storage 8 s.depth = .ok d)

include hdepth

/-- A load, of blocks of lanes or of one element. -/
theorem loadOf (kind : OpKind) (op : String)
    (src : Tensor) (hsrc : src.id < n) (count : Builder → Amount) (hcount : ∀ b, b.count = s.count → count b = c) :
    let t : Tensor := { src.toTensorType with id := n }
    ∃ x b', (do
        let out ← edit (Edit.newTensor src.toTensorType)
        let e ← Build.add kind op [src] [out]
        Build.setCount e (count (← get))
        Build.bindInputs e
        Build.bindOutputs e
        return out : Build Tensor) b = .ok t b' ∧
      Building s (xs ++ [x]) loops (n + 1) b' ∧ x.Blank kind [src] [t] d ∧ x.count = c := by
  intro t
  obtain ⟨b1, hnew, h1⟩ := h.newTensor src.toTensorType
  obtain ⟨x, b2, hadd, h2, hx, -⟩ := h1.add hdepth kind op [src] [t]
    (known_cons (Nat.le_refl n) (fun u hu => mem_singleton.1 hu ▸ hsrc) rfl)
  obtain ⟨b3, hset, h3⟩ := h2.setCount (count b2)
  obtain ⟨ins, b4, hins, h4⟩ := h3.bindInputs
  obtain ⟨outs, b5, houts, h5⟩ := h4.bindOutputs (t := t) hx.outputs
  refine ⟨_, b5, ?_, h5, ⟨hx.kind, hx.inputs, hx.outputs, hx.loopIds, hx.fills⟩, hcount b2 h2.count⟩
  rw [bind_run_ok hnew, bind_run_ok hadd, get_bind_run, bind_run_ok hset, bind_run_ok hins]
  exact bind_run_ok houts

theorem load (src : Tensor) (hsrc : src.id < n) : let t : Tensor := { src.toTensorType with id := n }
    ∃ x b', load src b = .ok t b' ∧ Building s (xs ++ [x]) loops (n + 1) b' ∧ x.Blank .load [src] [t] d ∧
      x.count = s.count :=
  h.loadOf hdepth .load "Load" src hsrc Builder.count fun _ hb => hb

theorem broadcastLoad (src : Tensor) (hsrc : src.id < n) : let t : Tensor :=
  { src.toTensorType with id := n }
    ∃ x b', broadcastLoad src b = .ok t b' ∧ Building s (xs ++ [x]) loops (n + 1) b' ∧
      x.Blank .broadcastLoad [src] [t] d ∧ x.count = 1 :=
  h.loadOf hdepth .broadcastLoad "BroadcastLoad" src hsrc (fun _ => 1) fun _ _ => rfl

theorem elementwise (op : String) (src : Tensor) (srcs : List Tensor)
    (hsrcs : ∀ u ∈ src :: srcs, u.id < n) :
    let t : Tensor := { (widest src srcs).toTensorType with id := n }
    ∃ x b', elementwise op (src :: srcs) b = .ok t b' ∧ Building s (xs ++ [x]) loops (n + 1) b' ∧
      x.Blank .elementwise (src :: srcs) [t] d ∧ x.op = op := by
  intro t
  obtain ⟨b1, hnew, h1⟩ := h.newTensor (widest src srcs).toTensorType
  obtain ⟨x, b2, hadd, h2, hx, hop⟩ := h1.add hdepth .elementwise op (src :: srcs) [t]
    (known_cons (Nat.le_refl n) hsrcs rfl)
  obtain ⟨ins, b3, hins, h3⟩ := h2.bindInputs
  obtain ⟨outs, b4, houts, h4⟩ := h3.bindOutputs (t := t) hx.outputs
  refine ⟨_, b4, ?_, h4, ⟨hx.kind, hx.inputs, hx.outputs, hx.loopIds, hx.fills⟩, hop⟩
  refine (bind_run_ok hnew).trans ?_
  rw [bind_run_ok hadd, bind_run_ok hins]
  exact bind_run_ok houts

theorem store (src : Tensor) (hsrc : src.id < n) : let t : Tensor :=
  { src.toTensorType with id := n }
    ∃ x b', store src b = .ok t b' ∧ Building s (xs ++ [x]) loops (n + 1) b' ∧ x.Blank .store [src] [t] d ∧
      x.count = s.count := by
  intro t
  obtain ⟨b1, hnew, h1⟩ := h.newTensor src.toTensorType
  obtain ⟨x, b2, hadd, h2, hx, -⟩ := h1.add hdepth .store "Store" [src] [t]
    (known_cons (Nat.le_refl n) (fun u hu => mem_singleton.1 hu ▸ hsrc) rfl)
  obtain ⟨b3, hcount, h3⟩ := h2.setCount b2.count
  obtain ⟨ins, b4, hins, h4⟩ := h3.bindInputs
  refine ⟨_, b4, ?_, h4, ⟨hx.kind, hx.inputs, hx.outputs, hx.loopIds, hx.fills⟩, h2.count⟩
  unfold Build.store
  rw [bind_run_ok hnew, bind_run_ok hadd, get_bind_run, bind_run_ok hcount]
  exact bind_run_ok hins

theorem result (src : Tensor) (hsrc : src.id < n) :
    ∃ x b', result src b = .ok ⟨⟩ b' ∧ Building s (xs ++ [x]) loops n b' ∧ x.Blank .result [src] [] d := by
  obtain ⟨x, b', hadd, h', hx, -⟩ := h.add hdepth .result "Result" [src] [] fun u hu => by
    rcases hu with hu | hu
    · exact mem_singleton.1 hu ▸ hsrc
    · cases hu
  exact ⟨x, b', bind_run_ok hadd, h', hx⟩

end

/-! ## Loops -/

/-- Changing a loop. -/
theorem modifyLoop (id : LoopId) (f : LoopInfo → LoopInfo) :
    ∃ b', edit (Edit.modifyLoop id f) b = .ok ⟨⟩ b' ∧ Building s xs (loops.modify id f) n b' :=
  ⟨{ b with kernel := { b.kernel with loops := b.kernel.loops.modify id f } }, rfl,
    { h with
      lists := h.lists.congr rfl rfl rfl (Nat.le_refl _) (Nat.le_refl _) fun _ _ => rfl
      loops := congrArg (·.modify id f) h.loops }⟩

end Building

/-- The expression with other tags. -/
def Expr.retag (ids : List LoopId) (x : Expr) : Expr := { x with loopIds := ids }

/-- The expression tagged with a loop at a level. -/
def Expr.tag (level : Nat) (id : LoopId) (x : Expr) : Expr := x.retag (x.loopIds.set level id)

namespace Kernel.Lists

variable {k : Kernel} {pre ys post : List Expr} {y : Expr} {level : Nat}

/-- Tagging a part of the list. -/
theorem forM_setLoopId (h : k.Lists (pre ++ ys ++ post))
    (hlevel : ∀ y ∈ ys, level < y.loopIds.length)
    (hsmall : level < 2 ^ 63) (id : LoopId) :
    ∃ exprs, (ys.map Expr.id).forM (fun e => Edit.setLoopId e id (Int64.ofNat level)) k = .ok ⟨⟩ { k with exprs } ∧
      ({ k with exprs } : Kernel).Lists (pre ++ ys.map (Expr.tag level id) ++ post) := by
  induction ys generalizing k pre with
  | nil => exact ⟨k.exprs, rfl, h⟩
  | cons y ys ih =>
    rw [append_assoc, cons_append] at h
    have hrun : Edit.setLoopId y.id id (Int64.ofNat level) k = .ok () _ := h.setLoopId (hlevel y mem_cons_self) hsmall
    have hlists := h.modify (f := fun _ => y.tag level id) rfl rfl rfl
    rw [append_cons, ← append_assoc] at hlists
    obtain ⟨exprs, hrest, hlists'⟩ := ih hlists fun z hz => hlevel z (mem_cons_of_mem y hz)
    refine ⟨exprs, ?_, ?_⟩
    · exact (bind_run_ok hrun).trans hrest
    · rw [map_cons, append_cons]
      exact hlists'

/-- Marking a part of the list as a loop tags it and registers its boundary. -/
theorem markLoop (h : k.Lists (pre ++ (y :: ys) ++ post))
    (hlevel : ∀ z ∈ y :: ys, level < z.loopIds.length)
    (hsmall : level < 2 ^ 63) (workAmount increment dim : Amount) :
    let info : LoopInfo :=
      { workAmount, increment, dim
        entries := k.entriesOf ((y :: ys).map Expr.id), exits := k.exitsOf ((y :: ys).map Expr.id) }
    ∃ exprs, let k' : Kernel := { k with loops := (k.loops.insert info).2, exprs }
      Edit.markLoop (some y.id) (post.head?.map Expr.id) (Int64.ofNat level) workAmount increment dim k =
          .ok (k.loops.next : LoopId) k' ∧
        k'.Lists (pre ++ (y :: ys).map (Expr.tag level k.loops.next) ++ post) := by
  intro info
  have hrange : k.range? (some y.id) (post.head?.map Expr.id) = some ((y :: ys).map Expr.id) :=
    range? (by rwa [append_assoc] at h)
  have hlists : ({ k with loops := (k.loops.insert info).2 } : Kernel).Lists (pre ++ (y :: ys) ++ post) :=
    h.congr rfl rfl rfl (Nat.le_refl _) (Nat.le_refl _) fun _ _ => rfl
  obtain ⟨exprs, htags, hlists'⟩ := hlists.forM_setLoopId hlevel hsmall (k.loops.next : LoopId)
  refine ⟨exprs, ?_, hlists'⟩
  unfold Edit.markLoop
  rw [get_bind_run, hrange]
  exact (bind_run_ok (show Edit.addLoop info k = .ok (k.loops.next : LoopId) _ from rfl)).trans (bind_run_ok htags)

end Kernel.Lists

theorem map_id_retag {ys : List Expr} (ids : List LoopId) :
    (ys.map (Expr.retag ids)).map Expr.id = ys.map Expr.id := by
  rw [map_map]
  rfl

theorem map_tag_retag {ys : List Expr} (level : Nat) (id : LoopId) (ids : List LoopId) :
    (ys.map (Expr.retag ids)).map (Expr.tag level id) = ys.map (Expr.retag (ids.set level id)) := by
  rw [map_map]
  rfl

/-- A loop over what follows an expression tags it and registers its boundary. -/
theorem Building.loop {s b : Builder} {ps : List Expr} {p y : Expr} {ys : List Expr}
    {ids : List LoopId} {loops : LoopTable}
    {n : TensorId} (h : Building s (ps ++ p :: (y :: ys).map (Expr.retag ids)) loops n b) (level : Nat)
    (hlevel : level < ids.length) (hsmall : level < 2 ^ 63) (workAmount increment : Amount) {entries exits : List Port}
    (hentries : b.kernel.entriesOf ((y :: ys).map Expr.id) = entries)
    (hexits : b.kernel.exitsOf ((y :: ys).map Expr.id) = exits) :
    let info : LoopInfo := { workAmount, increment, entries, exits, dim := s.depth - 1 - Int64.ofNat level }
    ∃ b', Build.loop (some p.id) (Int64.ofNat level) workAmount increment b = .ok (loops.next : LoopId) b' ∧
      Building s (ps ++ p :: (y :: ys).map (Expr.retag (ids.set level loops.next))) (loops.insert info).2 n b' := by
  intro info
  let k := b.kernel
  have hstart : Build.sinceMark k (some p.id) = some y.id := h.lists.next?
  have hlists : k.Lists ((ps ++ [p]) ++ (y.retag ids :: ys.map (Expr.retag ids)) ++ []) := by
    rw [append_nil, ← append_cons]
    exact h.lists
  have hlevels : ∀ z ∈ y.retag ids :: ys.map (Expr.retag ids), level < z.loopIds.length := by
    intro z hz
    obtain ⟨w, -, rfl⟩ := mem_map.1 (show z ∈ (y :: ys).map (Expr.retag ids) from hz)
    exact hlevel
  obtain ⟨exprs, hmark, hlists'⟩ :=
    hlists.markLoop hlevels hsmall workAmount increment (b.depth - 1 - Int64.ofNat level)
  rw [← map_cons, map_id_retag, hentries, hexits, h.loops, h.depth] at hmark
  rw [append_nil, ← map_cons, map_tag_retag, ← append_cons, h.loops] at hlists'
  let k' : Kernel := { k with loops := (loops.insert info).2, exprs }
  refine ⟨{ b with kernel := k' }, ?_, { h with lists := ?_, loops := rfl }⟩
  · replace hmark : Edit.markLoop (some y.id) none (Int64.ofNat level) workAmount increment
        (b.depth - 1 - Int64.ofNat level) k = .ok (loops.next : LoopId) k' := h.depth ▸ hmark
    unfold Build.loop
    rw [get_bind_run, hstart]
    show Build.edit _ b = _
    rw [Build.edit, hmark]
  · exact hlists'.congr rfl rfl rfl (Nat.le_refl _) (Nat.le_refl _) fun _ _ => rfl

end KernelLoops
