import KernelLoops.Proofs.Building
import KernelLoops.Proofs.PlanarSteps

set_option autoImplicit false

/-! # Elementwise nests

The kernels that apply operations lane by lane to a tensor of any rank, with one loop per dimension.
Lowered under any configuration, such a kernel accesses each element of its input and of its output
once, in order. -/

namespace KernelLoops

open List

variable {x y : Expr} {loops : LoopTable} {shape sizes : List Amount} {ids : List LoopId}
  {id : LoopId} {t v : Tensor}

/-! ## Building a nest -/

namespace Build

/-- Applies operations one after the other. -/
def chain (ops : List String) (t : Tensor) : Build Tensor :=
  ops.foldlM (fun t op => elementwise op [t]) t

/-- One loop for each size, from a level inward, over what was added since a mark. The innermost
    loop goes in steps of `inc` elements, the others one by one. -/
def loopOver (m : Option ExprId) (inc : Amount) : Nat → List Amount → Build Unit
  | _, [] => pure ()
  | level, size :: sizes => do
    loopOver m inc (level + 1) sizes
    let _ ← loop m (Int64.ofNat level) size (if sizes = [] then inc else 1)

/-- Applies operations to all elements of an input of a shape. The answer is the input and the
    output. -/
def elementwiseNest (shape : List Amount) (inc : Amount) (ops : List String) :
    Build (Tensor × Tensor) := do
  let src ← parameter shape
  let m ← mark
  let v ← load src
  let w ← chain ops v
  let dst ← store w
  loopOver m inc 0 shape
  result dst
  return (src, dst)

end Build

/-- The first input of an expression. -/
def Expr.inPort (x : Expr) : Port := { expr := x.id, side := .input, index := 0 }

/-- The first output of an expression. -/
def Expr.outPort (x : Expr) : Port := { expr := x.id, side := .output, index := 0 }

/-! ## Chains -/

/-- Expressions that each read what the one before made, from one tensor to another. -/
inductive Chain : Tensor → List Expr → Tensor → Prop
  | nil (t : Tensor) : Chain t [] t
  | cons {t u w : Tensor} {x : Expr} {xs : List Expr} (input : x.inputs = [t]) (output : x.outputs = [u])
      (fresh : t.id < u.id) (rest : Chain u xs w) : Chain t (x :: xs) w

namespace Chain

variable {u w : Tensor} {xs ys : List Expr}

theorem append (h : Chain t xs u) (h' : Chain u ys w) : Chain t (xs ++ ys) w := by
  induction h with
  | nil => exact h'
  | cons input output fresh _ ih => exact .cons input output fresh (ih h')

variable (h : Chain t xs w)

include h

theorem retag (ids : List LoopId) : Chain t (xs.map (Expr.retag ids)) w := by
  induction h with
  | nil => exact .nil _
  | cons input output fresh _ ih => exact .cons input output fresh ih

theorem le : t.id ≤ w.id := by
  induction h with
  | nil => exact Nat.le_refl _
  | cons _ _ fresh _ ih => exact Nat.le_of_lt (Nat.lt_of_lt_of_le fresh ih)

theorem single (hx : x ∈ xs) : ∃ u v, x.inputs = [u] ∧ x.outputs = [v] := by
  induction h with
  | nil => cases hx
  | cons input output _ _ ih =>
    rcases mem_cons.1 hx with rfl | hx
    · exact ⟨_, _, input, output⟩
    · exact ih hx

/-- What a chain makes comes after what it starts from. -/
theorem lt_outputs (hx : x ∈ xs) (hv : v ∈ x.outputs) : t.id < v.id := by
  induction h with
  | nil => cases hx
  | cons input output fresh _ ih =>
    rcases mem_cons.1 hx with rfl | hx
    · rw [output] at hv
      rwa [mem_singleton.1 hv]
    · exact Nat.lt_trans fresh (ih hx)

/-- What a chain reads does not come before what it starts from. -/
theorem le_inputs (hx : x ∈ xs) (hv : v ∈ x.inputs) : t.id ≤ v.id := by
  induction h with
  | nil => cases hx
  | cons input output fresh _ ih =>
    rcases mem_cons.1 hx with rfl | hx
    · rw [input] at hv
      rw [mem_singleton.1 hv]
    · exact Nat.le_of_lt (Nat.lt_of_lt_of_le fresh (ih hx))

/-- What a chain reads comes before what it ends with. -/
theorem inputs_lt (hx : x ∈ xs) (hv : v ∈ x.inputs) : v.id < w.id := by
  induction h with
  | nil => cases hx
  | cons input output fresh rest ih =>
    rcases mem_cons.1 hx with rfl | hx
    · rw [input] at hv
      rw [mem_singleton.1 hv]
      exact Nat.lt_of_lt_of_le fresh rest.le
    · exact ih hx

end Chain

/-! ## The boundary of a chain -/

namespace Kernel

variable {k : Kernel} {src dst w : Tensor} {ps xs ys : List Expr} {range : List ExprId}

/-- Is a tensor made outside a range? -/
def enters (k : Kernel) (range : List ExprId) (t : Tensor) : Bool :=
  match (k.producers t.id).head? with
  | some p => !range.contains p.expr
  | none => true

/-- Is a tensor that an expression of a range makes read outside the range, or not read at all? -/
def exits (k : Kernel) (range : List ExprId) (e : ExprId) (t : Tensor) : Bool :=
  ((k.consumers t.id).isEmpty && !(k.expr e).kind.isMarker) ||
    (k.consumers t.id).any fun p => !range.contains p.expr

theorem entriesOf_eq (hk : ∀ x ∈ xs, k.expr x.id = x) (range : List ExprId) :
    (xs.map Expr.id).flatMap (fun e => (k.expr e).inputs.zipIdx.filterMap fun (t, index) =>
      match (k.producers t.id).head? with
      | some p =>
        if range.contains p.expr then none else some ({ expr := e, side := .input, index } : Port)
      | none => some { expr := e, side := .input, index }) =
    xs.flatMap fun x => x.inputs.zipIdx.filterMap fun (t, index) =>
      if k.enters range t then some { expr := x.id, side := .input, index } else none := by
  rw [flatMap_map]
  refine flatMap_congr fun x hx => ?_
  rw [hk x hx]
  refine filterMap_congr fun ⟨t, index⟩ _ => ?_
  rcases hhead : (k.producers t.id).head? with - | q
  · simp [enters, hhead]
  · by_cases hq : q.expr ∈ range <;> simp [enters, hhead, hq]

theorem exitsOf_eq (hk : ∀ x ∈ xs, k.expr x.id = x) :
    k.exitsOf (xs.map Expr.id) = xs.flatMap fun x => x.outputs.zipIdx.filterMap fun (t, index) =>
      if k.exits (xs.map Expr.id) x.id t then some { expr := x.id, side := .output, index } else none := by
  rw [Kernel.exitsOf, flatMap_map]
  refine flatMap_congr fun x hx => ?_
  rw [hk x hx]
  refine filterMap_congr fun ⟨t, index⟩ _ => ?_
  simp only [exits, hk x hx]

/-! The end of a list as a range. -/

section Range

variable (hk : k.Lists (xs ++ ys))

include hk

/-- What no expression of the range makes enters it. -/
theorem Lists.enters_outside (hys : ∀ y ∈ ys, ∀ u ∈ y.outputs, u.id ≠ t.id) :
    k.enters (ys.map Expr.id) t = true := by
  rcases hhead : (k.producers t.id).head? with - | q
  · rw [enters, hhead]
  · obtain ⟨z, hz, hqz, -, v, hv, hid⟩ := hk.mem_producers.1 (mem_of_mem_head? hhead)
    have hnot : z.id ∉ ys.map Expr.id := by
      intro hmem
      obtain ⟨y, hy, hyz⟩ := mem_map.1 hmem
      have heq : z = y := by rw [← hk.read z hz, ← hk.read y (mem_append_right xs hy), hyz]
      exact hys y hy v (heq ▸ mem_of_getElem? hv) hid.symm
    rw [enters, hhead]
    simp only [hqz, Bool.not_eq_true']
    exact Bool.eq_false_iff.2 fun hmem => hnot (contains_iff_mem.1 hmem)

/-- What the range makes, and nothing before it, does not enter it. -/
theorem Lists.enters_inside (hxs : ∀ x ∈ xs, ∀ u ∈ x.outputs, u.id ≠ t.id) (hy : y ∈ ys)
    (ht : t ∈ y.outputs) :
    k.enters (ys.map Expr.id) t = false := by
  obtain ⟨i, hi⟩ := getElem?_of_mem ht
  have hmem : (⟨y.id, .output, i⟩ : Port) ∈ k.producers t.id :=
    hk.mem_producers.2 ⟨y, mem_append_right xs hy, rfl, rfl, t, hi, rfl⟩
  rcases hhead : (k.producers t.id).head? with - | q
  · rw [head?_eq_none_iff.1 hhead] at hmem
    cases hmem
  · obtain ⟨z, hz, hqz, -, v, hv, hid⟩ := hk.mem_producers.1 (mem_of_mem_head? hhead)
    have hzys : z ∈ ys := (mem_append.1 hz).resolve_left fun hz => hxs z hz v (mem_of_getElem? hv) hid.symm
    rw [enters, hhead]
    simp only [hqz, Bool.not_eq_false']
    exact contains_iff_mem.2 (mem_map_of_mem hzys)

/-- What nothing reads exits from the expression that makes it. -/
theorem Lists.exits_unread (hy : y ∈ ys) (hkind : y.kind.isMarker = false)
    (hnone : ∀ z ∈ xs ++ ys, ∀ u ∈ z.inputs, u.id ≠ t.id) (range : List ExprId) : k.exits range y.id t = true := by
  have hempty : k.consumers t.id = [] := by
    refine eq_nil_iff_forall_not_mem.2 fun q hq => ?_
    obtain ⟨z, hz, -, -, v, hv, hid⟩ := hk.mem_consumers.1 hq
    exact hnone z hz v (mem_of_getElem? hv) hid.symm
  rw [exits, hempty, hk.read y (mem_append_right xs hy), hkind]
  rfl

/-- What the range reads, and nothing before it, does not exit. -/
theorem Lists.exits_inside (hxs : ∀ x ∈ xs, ∀ u ∈ x.inputs, u.id ≠ t.id) (hy : y ∈ ys)
    (ht : t ∈ y.inputs)
    (e : ExprId) : k.exits (ys.map Expr.id) e t = false := by
  obtain ⟨i, hi⟩ := getElem?_of_mem ht
  have hmem : (⟨y.id, .input, i⟩ : Port) ∈ k.consumers t.id :=
    hk.mem_consumers.2 ⟨y, mem_append_right xs hy, rfl, rfl, t, hi, rfl⟩
  have hnone : ((k.consumers t.id).any fun q => !(ys.map Expr.id).contains q.expr) = false := by
    rw [any_eq_false]
    intro q hq
    obtain ⟨z, hz, hqz, -, v, hv, hid⟩ := hk.mem_consumers.1 hq
    have hzys : z ∈ ys := (mem_append.1 hz).resolve_left fun hz => hxs z hz v (mem_of_getElem? hv) hid.symm
    rw [hqz, contains_iff_mem.2 (mem_map_of_mem hzys)]
    decide
  rw [exits, hnone, Bool.or_false, isEmpty_eq_false_iff.2 (ne_nil_of_mem hmem), Bool.false_and]

end Range

/-- Behind its first expression a chain reads nothing that is made outside it. -/
theorem entries_nil (h : Chain t xs w) (ht : k.enters range t = false)
    (hxs : ∀ x ∈ xs, ∀ u ∈ x.outputs, k.enters range u = false) :
    (xs.flatMap fun x => x.inputs.zipIdx.filterMap fun (t, index) =>
      if k.enters range t then some { expr := x.id, side := .input, index } else none) = ([] : List Port) := by
  induction h with
  | nil => rfl
  | @cons t u w x xs input output fresh _ ih =>
    rw [flatMap_cons, ih (hxs x mem_cons_self u (output ▸ mem_singleton_self u))
      fun y hy => hxs y (mem_cons_of_mem x hy), input]
    simp [ht]

/-- Before its last expression a chain makes nothing that is read outside it. -/
theorem exits_eq (h : Chain t xs w) (hne : xs ≠ []) (hlast : ∀ x ∈ xs, k.exits range x.id w = true)
    (hread : ∀ x ∈ xs, ∀ y ∈ xs, ∀ u ∈ y.inputs, k.exits range x.id u = false) :
    (xs.flatMap fun x => x.outputs.zipIdx.filterMap fun (t, index) =>
      if k.exits range x.id t then some { expr := x.id, side := .output, index } else none) =
      [(xs.getLast hne).outPort] := by
  induction h with
  | nil => exact absurd rfl hne
  | @cons t u w x xs input output fresh rest ih =>
    rw [flatMap_cons, output]
    cases rest with
    | nil =>
      simp [hlast x mem_cons_self, Expr.outPort]
    | @cons _ v _ y ys input' output' fresh' rest' =>
      have hstays : k.exits range x.id u = false :=
        hread x mem_cons_self y (mem_cons_of_mem x mem_cons_self) u
          (input' ▸ mem_singleton_self u)
      rw [ih (cons_ne_nil y ys) (fun z hz => hlast z (mem_cons_of_mem x hz))
        fun z hz z' hz' => hread z (mem_cons_of_mem x hz) z' (mem_cons_of_mem x hz'),
        getLast_cons (cons_ne_nil y ys)]
      simp [hstays]

section Chain

variable (hk : k.Lists (ps ++ ys)) (h : Chain src ys dst)
  (hout : ∀ x ∈ ps, ∀ u ∈ x.outputs, u.id ≤ src.id)

include hk h

include hout in
/-- The first expression of a chain is its only entry. -/
theorem Lists.entriesOf_chain (hne : ys ≠ []) :
    k.entriesOf (ys.map Expr.id) = [(ys.head hne).inPort] := by
  refine (entriesOf_eq (fun x hx => hk.read x (mem_append_right ps hx)) _).trans ?_
  have hsrc : k.enters (ys.map Expr.id) src = true :=
    hk.enters_outside fun y hy u hu => Nat.ne_of_gt (h.lt_outputs hy hu)
  have hinside : ∀ y ∈ ys, ∀ u ∈ y.outputs, k.enters (ys.map Expr.id) u = false := fun y hy u hu =>
    hk.enters_inside (fun x hx v hv => Nat.ne_of_lt (Nat.lt_of_le_of_lt (hout x hx v hv) (h.lt_outputs hy hu))) hy hu
  generalize ys.map Expr.id = range at hsrc hinside
  cases h with
  | nil => exact absurd rfl hne
  | @cons _ u _ x xs input output fresh rest =>
    rw [flatMap_cons, input,
      entries_nil rest (hinside x mem_cons_self u (output ▸ mem_singleton_self u))
        fun y hy => hinside y (mem_cons_of_mem x hy)]
    simp [hsrc, Expr.inPort]

/-- The last expression of a chain is its only exit. -/
theorem Lists.exitsOf_chain (hin : ∀ x ∈ ps, ∀ u ∈ x.inputs, u.id < src.id) (hne : ys ≠ [])
    (hkind : ∀ y ∈ ys, y.kind.isMarker = false) :
    k.exitsOf (ys.map Expr.id) = [(ys.getLast hne).outPort] := by
  rw [exitsOf_eq fun x hx => hk.read x (mem_append_right ps hx)]
  refine exits_eq h hne (fun x hx => ?_) fun x hx y hy u hu => ?_
  · refine hk.exits_unread hx (hkind x hx) (fun z hz u hu => ?_) _
    rcases mem_append.1 hz with hz | hz
    · exact Nat.ne_of_lt (Nat.lt_of_lt_of_le (hin z hz u hu) h.le)
    · exact Nat.ne_of_lt (h.inputs_lt hz hu)
  · exact hk.exits_inside (fun z hz v hv => Nat.ne_of_lt (Nat.lt_of_lt_of_le (hin z hz v hv) (h.le_inputs hy hu)))
      hy hu x.id

end Chain

end Kernel

/-! ## Running the builder -/

namespace Building

variable {s b : Builder} {xs : List Expr} {n : TensorId} {d : Nat}

/-- Operations one after the other add a chain of expressions that access no memory. -/
theorem chain (h : Building s xs loops n b) (hdepth : storage 8 s.depth = .ok d) (ops : List String)
    (ht : t.id < n) :
    ∃ ys w n' b', Build.chain ops t b = .ok w b' ∧ Building s (xs ++ ys) loops n' b' ∧ Chain t ys w ∧
      (∀ y ∈ ys, y.kind = .elementwise ∧ y.loopIds = replicate d LoopId.null) ∧ w.id < n' ∧
      w.toTensorType = t.toTensorType := by
  induction ops generalizing xs n b t with
  | nil =>
    exact ⟨[], t, n, b, rfl, (append_nil xs).symm ▸ h, .nil t, fun _ hy => (nomatch hy), ht, rfl⟩
  | cons op ops ih =>
    obtain ⟨x, b1, hop, h1, hx, -⟩ := h.elementwise hdepth op t [] fun u hu => mem_singleton.1 hu ▸ ht
    obtain ⟨ys, w, n', b', hops, h', hchain, hys, hw, htype⟩ :=
      ih (t := { t.toTensorType with id := n }) h1 (Nat.lt_succ_self n)
    rw [append_assoc] at h'
    refine ⟨x :: ys, w, n', b', (bind_run_ok hop).trans hops, h', .cons hx.inputs hx.outputs ht hchain, ?_, hw, htype⟩
    intro y hy
    rcases mem_cons.1 hy with rfl | hy
    · exact ⟨hx.kind, hx.loopIds⟩
    · exact hys y hy

end Building

/-- The loop over one dimension of a nest: the innermost one goes in steps of `inc` elements. -/
def levelLoop (depth inc : Amount) (entries exits : List Port) (level : Nat) (size : Amount)
    (sizes : List Amount) :
    LoopInfo :=
  { workAmount := size
    increment := if sizes = [] then inc else 1
    entries
    exits
    dim := depth - 1 - Int64.ofNat level }

/-- The loops that tag the levels of an expression from one level inward, outermost first: each is
    registered with its size and boundary, and each tags one level only. -/
inductive Registered (loops : LoopTable) (depth inc : Amount) (entries exits : List Port) :
    Nat → List Amount → List LoopId → Prop
  | nil (level : Nat) : Registered loops depth inc entries exits level [] []
  | cons {level : Nat} {size : Amount} {sizes : List Amount} {id : Nat} {ids : List LoopId}
      (info : loops.get? id = some (levelLoop depth inc entries exits level size sizes))
      (once : (id : LoopId) ∉ ids) (inside : Registered loops depth inc entries exits (level + 1) sizes ids) :
      Registered loops depth inc entries exits level (size :: sizes) (id :: ids)

namespace Registered

variable {depth inc : Amount} {entries exits : List Port} {level : Nat}
  (h : Registered loops depth inc entries exits level sizes ids)

include h

/-- One more loop does not change those that are there. -/
theorem insert (l : LoopInfo) :
    Registered (loops.insert l).2 depth inc entries exits level sizes ids := by
  induction h with
  | nil level => exact .nil level
  | cons info once _ ih =>
    refine .cons ?_ once ih
    rw [LoopTable.get?_insert, info]
    rfl

/-- The outermost loop and those inside it. -/
theorem exists_cons (hne : sizes ≠ []) : ∃ size sizes' id ids', sizes = size :: sizes' ∧
    ids = id :: ids' ∧
      loops.get? id = some (levelLoop depth inc entries exits level size sizes') ∧
      Registered loops depth inc entries exits (level + 1) sizes' ids' := by
  cases h with
  | nil => exact absurd rfl hne
  | cons info _ inside => exact ⟨_, _, _, _, rfl, rfl, info, inside⟩

theorem nodup : ids.Nodup := by
  induction h with
  | nil => exact nodup_nil
  | cons _ once _ ih => exact nodup_cons.2 ⟨once, ih⟩

end Registered

/-- One loop for each size tags the levels from one level inward, and all have the boundary of what
    they tag. -/
theorem Building.loopOver {s b : Builder} {ps : List Expr} {p : Expr} {ys : List Expr} {n : TensorId}
    {outer : List LoopId}
    (h : Building s (ps ++ p :: ys.map (Expr.retag (outer ++ replicate sizes.length LoopId.null))) loops n b)
    (hloops : loops.Plain) (hsmall : outer.length + sizes.length < 2 ^ 63) (inc : Amount) (hne : ys ≠ [])
    (entries exits : List Port) (hentries : ∀ (k : Kernel) ids, k.Lists (ps ++ p :: ys.map (Expr.retag ids)) →
      k.entriesOf (ys.map Expr.id) = entries)
    (hexits : ∀ (k : Kernel) ids, k.Lists (ps ++ p :: ys.map (Expr.retag ids)) → k.exitsOf (ys.map Expr.id) = exits) :
    ∃ ids loops' b', Build.loopOver (some p.id) inc outer.length sizes b = .ok ⟨⟩ b' ∧
      Building s (ps ++ p :: ys.map (Expr.retag (outer ++ ids))) loops' n b' ∧ loops'.Plain ∧
      (∀ id ∈ ids, id < loops'.next) ∧ Registered loops' s.depth inc entries exits outer.length sizes ids ∧
      (∀ id l, loops.get? id = some l → loops'.get? id = some l) ∧ loops.next ≤ loops'.next := by
  induction sizes generalizing outer with
  | nil =>
    exact ⟨[], loops, b, rfl, h, hloops, fun _ hid => (nomatch hid), .nil _, fun _ _ h => h, Nat.le_refl _⟩
  | cons size sizes ih =>
    have hshift : outer ++ replicate (size :: sizes).length LoopId.null =
        (outer ++ [LoopId.null]) ++ replicate sizes.length LoopId.null := by
      rw [length_cons, replicate_succ, ← append_cons]
    have hlevel : (outer ++ [LoopId.null]).length = outer.length + 1 := length_append
    rw [hshift] at h
    rw [length_cons] at hsmall
    obtain ⟨ids, loops1, b1, hrun, h1, hplain, hbelow, hreg, hold, hgrow⟩ := ih h (by rw [hlevel]; omega)
    rw [hlevel] at hrun hreg
    have hin := hentries b1.kernel _ h1.lists
    have hout := hexits b1.kernel _ h1.lists
    obtain ⟨y, ys, rfl⟩ := exists_cons_of_ne_nil hne
    obtain ⟨b2, hloop, h2⟩ := h1.loop outer.length (by simp) (by omega) size
      (if sizes = [] then inc else 1) hin hout
    have hset : (outer ++ [LoopId.null] ++ ids).set outer.length (loops1.next : LoopId) =
        outer ++ (loops1.next : LoopId) :: ids := by
      rw [← append_cons, set_append_right _ _ (Nat.le_refl _), Nat.sub_self, set_cons_zero]
    rw [hset] at h2
    refine ⟨loops1.next :: ids, _, b2, ?_, h2, hplain.insert rfl, ?_, .cons ?_ ?_ (hreg.insert _), ?_, ?_⟩
    · unfold Build.loopOver
      rw [bind_run_ok hrun]
      exact bind_run_ok hloop
    · intro id hid
      have hnext : ((loops1.next : Int) : LoopId) < ((loops1.next + 1 : Nat) : Int) := by omega
      rcases mem_cons.1 hid with rfl | hid
      · exact hnext
      · exact Int.lt_trans (hbelow id hid) hnext
    · rw [LoopTable.get?_insert, hplain.get?_next, if_pos rfl]
      rfl
    · exact fun hmem => Int.lt_irrefl _ (hbelow _ hmem)
    · intro id l hl
      rw [LoopTable.get?_insert, hold id l hl]
      rfl
    · exact Nat.le_succ_of_le hgrow

/-! ## Streaming kernels -/

/-- The loop has the boundary of a body between a load and a store, and goes over the dimension with
    `sizes` inside. -/
structure LoopInfo.Spans (info : LoopInfo) (load store : Expr) (sizes : List Amount) : Prop where
  entries : info.entries = [load.inPort]
  exits : info.exits = [store.outPort]
  dim : info.dim = Int64.ofNat sizes.length

/-- A kernel that streams a tensor of a shape to another one, between its interface, in loops that
    go over dimensions of the shape. The kernel has `depth` levels. -/
structure Kernel.Streaming (k : Kernel) (elementType : ElementType) (shape : List Amount)
    (inc : Amount) (depth : Nat)
    (src dst : Tensor) (p r load store : Expr) (ys : List Expr) (ids : List LoopId) : Prop where
  lists : k.Lists (p :: (ys ++ [r]))
  param : p.Blank .parameter [] [src] depth
  res : r.Blank .result [dst] [] depth
  first : load ∈ ys ∧ load.kind = .load ∧ load.inputs = [src]
  last : store ∈ ys ∧ store.kind = .store ∧ store.outputs = [dst]
  chain : Chain src ys dst
  streams : Streams src dst inc ys
  kinds : ∀ y ∈ ys, y.kind = .load ∨ y.kind = .elementwise ∨ y.kind = .store
  tags : ∀ y ∈ ys, y.loopIds = ids
  apart : ids.Nodup
  loops : ∀ id ∈ ids, ∃ info outer size sizes, k.loops.get? id = some info ∧ shape = outer ++ size :: sizes ∧
    info.Spans load store sizes
  numbered : k.loops.Numbered
  types : src.toTensorType = .planar elementType shape ∧ dst.toTensorType = .planar elementType shape

/-- The start of a streaming kernel: a parameter and the body behind it, in no loop yet. -/
structure Building.Streamed (s b : Builder) (shape : List Amount) (depth : Nat) (src dst : Tensor)
    (p load store : Expr)
    (quiet : List Expr) (n : TensorId) : Prop where
  built : Building s (p :: load :: (quiet ++ [store])) {} n b
  param : p.Blank .parameter [] [src] depth
  first : load.kind = .load ∧ load.inputs = [src] ∧ load.count = s.count
  between : ∀ y ∈ quiet, y.kind = .elementwise
  last : store.kind = .store ∧ store.outputs = [dst] ∧ store.count = s.count
  chain : Chain src (load :: (quiet ++ [store])) dst
  tags : ∀ y ∈ load :: (quiet ++ [store]), y.loopIds = replicate depth LoopId.null
  known : dst.id < n
  types : src.toTensorType = .planar s.elementType shape ∧ dst.toTensorType = .planar s.elementType shape

/-- Building the start of a streaming kernel, step by step. -/
theorem Build.stream_run (config : Config) (elementType : ElementType) {depth : Amount} {d : Nat}
    (hdepth : storage 8 depth = .ok d)
    (shape : List Amount) (inc : Amount) (ops : List String) :
    let s := Builder.start config elementType depth inc
    ∃ src v w dst b1 b2 b3 b4 p load store quiet n, parameter shape s = .ok src b1 ∧ mark b1 = .ok (some p.id) b1 ∧
      Build.load src b1 = .ok v b2 ∧ chain ops v b2 = .ok w b3 ∧ Build.store w b3 = .ok dst b4 ∧
      Building.Streamed s b4 shape d src dst p load store quiet n := by
  intro s
  obtain ⟨p, b1, hparam, h1, hp⟩ := (Building.start config elementType depth inc).parameter hdepth shape
  let src : Tensor := { TensorType.planar elementType shape with id := 0 }
  have hmark : Build.mark b1 = .ok (some p.id) b1 := by
    show EStateM.Result.ok b1.kernel.last? b1 = _
    rw [Kernel.last?, h1.lists.order]
    rfl
  obtain ⟨load, b2, hload, h2, hl, hlcount⟩ := h1.load hdepth src (Nat.lt_succ_self 0)
  let v : Tensor := { src.toTensorType with id := 1 }
  obtain ⟨quiet, w, n, b3, hchain, h3, hlinks, hquiet, hw, hwtype⟩ := h2.chain (t := v) hdepth ops (Nat.lt_succ_self 1)
  obtain ⟨store, b4, hstore, h4, hs, hscount⟩ := h3.store hdepth w hw
  refine ⟨src, v, w, { w.toTensorType with id := n }, b1, b2, b3, b4, p, load, store, quiet, n + 1,
    hparam, hmark, hload, hchain,
    hstore, ?_⟩
  exact {
    built := by simpa using h4
    param := hp
    first := ⟨hl.kind, hl.inputs, hlcount⟩
    between := fun y hy => (hquiet y hy).1
    last := ⟨hs.kind, hs.outputs, hscount⟩
    chain := .cons hl.inputs hl.outputs (Nat.lt_succ_self 0) (hlinks.append (.cons hs.inputs hs.outputs hw (.nil _)))
    tags := by
      intro y hy
      rcases mem_cons.1 hy with rfl | hy
      · exact hl.loopIds
      · rcases mem_append.1 hy with hy | hy
        · exact (hquiet y hy).2
        · rw [mem_singleton.1 hy]
          exact hs.loopIds
    known := Nat.lt_succ_self n
    types := ⟨rfl, hwtype⟩ }

namespace Building.Streamed

variable {s b : Builder} {depth : Nat} {src dst : Tensor} {p load store : Expr} {quiet : List Expr}
  {n : TensorId}
  (h : Building.Streamed s b shape depth src dst p load store quiet n)

include h

theorem kinds (hy : y ∈ load :: (quiet ++ [store])) : y.kind = .load ∨ y.kind = .elementwise ∨
    y.kind = .store := by
  rcases mem_cons.1 hy with rfl | hy
  · exact .inl h.first.1
  · rcases mem_append.1 hy with hy | hy
    · exact .inr (.inl (h.between y hy))
    · rw [mem_singleton.1 hy]
      exact .inr (.inr h.last.1)

/-- The body is tagged with no loop. -/
theorem untagged : Building s ([] ++
    p :: (load :: (quiet ++ [store])).map (Expr.retag (replicate depth LoopId.null))) {} n b := by
  have hblank : (load :: (quiet ++ [store])).map (Expr.retag (replicate depth LoopId.null)) =
      load :: (quiet ++ [store]) := by
    refine (map_congr_left fun y hy => ?_).trans (map_id _)
    rw [← h.tags y hy]
    rfl
  rw [hblank]
  exact h.built

/-- What comes before the body has nothing to do with it. -/
theorem before : ∀ x ∈ [p], (∀ u ∈ x.inputs, u.id < src.id) ∧ ∀ u ∈ x.outputs, u.id ≤ src.id := by
  intro x hx
  rw [mem_singleton.1 hx, h.param.inputs, h.param.outputs]
  exact ⟨fun u hu => (nomatch hu), fun u hu => mem_singleton.1 hu ▸ Nat.le_refl _⟩

/-- A loop over the body enters it at the load, whatever the tags are. -/
theorem entriesOf (k : Kernel) (ids : List LoopId)
    (hk : k.Lists ([] ++ p :: (load :: (quiet ++ [store])).map (Expr.retag ids))) :
    k.entriesOf ((load :: (quiet ++ [store])).map Expr.id) = [load.inPort] := by
  have hlists : k.Lists ([p] ++ (load :: (quiet ++ [store])).map (Expr.retag ids)) := hk
  rw [← map_id_retag ids]
  exact hlists.entriesOf_chain (h.chain.retag ids) (fun x hx => (h.before x hx).2) (cons_ne_nil _ _)

/-- A loop over the body leaves it at the store, whatever the tags are. -/
theorem exitsOf (k : Kernel) (ids : List LoopId)
    (hk : k.Lists ([] ++ p :: (load :: (quiet ++ [store])).map (Expr.retag ids))) :
    k.exitsOf ((load :: (quiet ++ [store])).map Expr.id) = [store.outPort] := by
  have hlists : k.Lists ([p] ++ (load :: (quiet ++ [store])).map (Expr.retag ids)) := hk
  have hlast := hlists.exitsOf_chain (h.chain.retag ids) (fun x hx => (h.before x hx).1)
      (cons_ne_nil _ _) fun z hz => by
    obtain ⟨y, hy, rfl⟩ := mem_map.1 hz
    show y.kind.isMarker = false
    rcases h.kinds hy with hk | hk | hk <;> rw [hk] <;> rfl
  rw [map_id_retag, getLast_map] at hlast
  rw [hlast]
  simp [Expr.outPort, Expr.retag]

/-- The body in its loops, with the output behind it, is a streaming kernel. -/
theorem streaming {n' : TensorId} {r : Expr} {b' : Builder}
    (h' : Building s (p :: (load :: (quiet ++ [store])).map (Expr.retag ids) ++ [r]) loops n' b')
    (hr : r.Blank .result [dst] [] depth) (hapart : ids.Nodup)
    (hloops : ∀ id ∈ ids, ∃ info outer size sizes, loops.get? id = some info ∧ shape = outer ++ size :: sizes ∧
      info.Spans load store sizes) (hnumbered : loops.Numbered) :
    b'.kernel.Streaming s.elementType shape s.count depth src dst p r (load.retag ids) (store.retag ids)
      ((load :: (quiet ++ [store])).map (Expr.retag ids)) ids := by
  have hlt : src.id < dst.id := h.chain.lt_outputs (x := store) (by simp) (h.last.2.1 ▸ mem_singleton_self dst)
  exact {
    lists := h'.lists
    param := h.param
    res := hr
    first := ⟨mem_map_of_mem mem_cons_self, h.first.1, h.first.2.1⟩
    last := ⟨mem_map_of_mem (by simp), h.last.1, h.last.2.1⟩
    chain := h.chain.retag ids
    streams := {
      apart := Nat.ne_of_lt hlt
      unmade := fun y hy t ht => Nat.ne_of_gt ((h.chain.retag ids).lt_outputs hy ht)
      shape := by
        refine ⟨load.retag ids, quiet.map (Expr.retag ids), store.retag ids, by simp, h.first, fun x hx => ?_, h.last⟩
        obtain ⟨y, hy, rfl⟩ := mem_map.1 hx
        rw [Expr.touched, show (y.retag ids).kind = .elementwise from h.between y hy] }
    kinds := fun y hy => by
      obtain ⟨y', hy', rfl⟩ := mem_map.1 hy
      have hkinds := h.kinds hy'
      exact hkinds
    tags := fun y hy => by
      obtain ⟨y', -, rfl⟩ := mem_map.1 hy
      rfl
    apart := hapart
    loops := by
      intro id hid
      obtain ⟨info, outer, size, sizes, hinfo, hshape, hspans⟩ := hloops id hid
      exact ⟨info, outer, size, sizes, h'.loops ▸ hinfo, hshape, hspans.entries, hspans.exits, hspans.dim⟩
    numbered := h'.loops ▸ hnumbered
    types := h.types }

end Building.Streamed

/-! ## The kernel of a nest -/

/-- A kernel that streams a tensor of a shape to another one, between its interface, in one loop per
    dimension. -/
structure Kernel.IsNest (k : Kernel) (elementType : ElementType) (shape : List Amount) (inc : Amount)
    (src dst : Tensor) (p r load store : Expr) (ys : List Expr) (ids : List LoopId) : Prop
    extends k.Streaming elementType shape inc shape.length src dst p r load store ys ids where
  registered : Registered k.loops (Int64.ofNat shape.length) inc [load.inPort]
    [store.outPort] 0 shape ids
  table : k.loops.Plain

/-- A rank that has room in memory gives as many levels. -/
theorem storage_rank {rank : Nat} (h : rank ≤ 2 ^ 45) : storage 8 (Int64.ofNat rank) = .ok rank := by
  have hint : (Int64.ofNat rank).toInt = rank := Int64.toInt_ofNat_of_lt (by omega)
  have hnot : ¬(Int64.ofNat rank < 0) := fun hlt => by
    have := Amount.lt_iff.1 hlt
    rw [hint] at this
    exact absurd this (Int.not_lt.2 (Int.natCast_nonneg rank))
  rw [storage, hint, Int.toNat_natCast, decide_eq_false hnot, Bool.false_or, if_neg]
  rw [decide_eq_true_eq]
  omega

/-- The loops of a nest are registered. -/
theorem Registered.mem {depth inc : Amount} {entries exits : List Port} {level : Nat}
    (h : Registered loops depth inc entries exits level shape ids) (hid : id ∈ ids) :
    id.isSentinel = false ∧ ∃ outer size sizes, shape = outer ++ size :: sizes ∧
      loops.get? id = some (levelLoop depth inc entries exits (level + outer.length) size sizes) := by
  induction h with
  | nil => cases hid
  | @cons level size sizes id' ids info once _ ih =>
    rcases mem_cons.1 hid with rfl | hid
    · refine ⟨?_, [], size, sizes, rfl, info⟩
      rw [LoopId.isSentinel, decide_eq_false_iff_not]
      exact Int.not_lt.2 (Int.natCast_nonneg id')
    · obtain ⟨hreal, outer, size', sizes', hshape, hinfo⟩ := ih hid
      refine ⟨hreal, size :: outer, size', sizes', by rw [hshape]; rfl, ?_⟩
      rw [hinfo, length_cons]
      congr 2
      omega

/-- A loop of a nest goes over its dimension. -/
theorem levelLoop_spans {outer : List Amount} {size : Amount}
    (hshape : shape = outer ++ size :: sizes) (inc : Amount)
    (load store : Expr) : (levelLoop (Int64.ofNat shape.length) inc [load.inPort] [store.outPort] outer.length size
      sizes).Spans load store sizes := by
  refine ⟨rfl, rfl, ?_⟩
  show Int64.ofNat shape.length - 1 - Int64.ofNat outer.length = Int64.ofNat sizes.length
  rw [hshape, length_append, length_cons, Int64.ofNat_add, Int64.ofNat_add]
  grind

/-- Building a nest gives the kernel of the nest. -/
theorem Build.elementwiseNest_run (config : Config) (elementType : ElementType)
    (shape : List Amount) (inc : Amount)
    (ops : List String) (hrank : shape.length ≤ 2 ^ 45) :
    ∃ src dst b p r load store ys ids,
      elementwiseNest shape inc ops (.start config elementType (Int64.ofNat shape.length) inc) = .ok (src, dst) b ∧
      b.kernel.IsNest elementType shape inc src dst p r load store ys ids ∧ b.kernel.config = config := by
  have hdepth := storage_rank hrank
  obtain ⟨src, v, w, dst, b1, b2, b3, b4, p, load, store, quiet, n, hparam, hmark, hload, hchain, hstore, h⟩ :=
    stream_run config elementType hdepth shape inc ops
  have hbuilt : Building (.start config elementType (Int64.ofNat shape.length) inc)
    ([] ++ p :: (load :: (quiet ++ [store])).map
      (Expr.retag ([] ++ replicate shape.length LoopId.null))) {} n b4 := h.untagged
  obtain ⟨ids, loops, b5, hloops, h5, hplain, -, hreg, -, -⟩ := hbuilt.loopOver
    ⟨⟨nofun⟩, nofun⟩ (by simp only [length_nil]; omega) inc (cons_ne_nil _ _) [load.inPort] [store.outPort]
    h.entriesOf h.exitsOf
  obtain ⟨r, b6, hresult, h6, hr⟩ := h5.result hdepth dst h.known
  refine ⟨src, dst, b6, p, r, load.retag ids, store.retag ids,
    (load :: (quiet ++ [store])).map (Expr.retag ids), ids, ?_, ?_,
    h6.config⟩
  · unfold elementwiseNest
    refine (bind_run_ok hparam).trans ((bind_run_ok hmark).trans ((bind_run_ok hload).trans ?_))
    refine (bind_run_ok hchain).trans ((bind_run_ok hstore).trans ((bind_run_ok hloops).trans ?_))
    exact bind_run_ok hresult
  · exact {
      toStreaming := h.streaming h6 hr hreg.nodup (fun id hid => by
        obtain ⟨-, outer, size, sizes, hshape, hinfo⟩ := hreg.mem hid
        rw [length_nil, Nat.zero_add] at hinfo
        exact ⟨_, outer, size, sizes, hinfo, hshape, levelLoop_spans hshape inc load store⟩) hplain.toNumbered
      registered := h6.loops ▸ hreg
      table := h6.loops ▸ hplain }

/-! ## Parameters of the loops -/

namespace Kernel.Streaming

variable {k : Kernel} {elementType : ElementType} {inc : Amount} {depth : Nat} {src dst : Tensor}
  {p r load store : Expr}
  {ys : List Expr} (h : k.Streaming elementType shape inc depth src dst p r load store ys ids)

include h

theorem real (hid : id ∈ ids) : id.isSentinel = false := by
  obtain ⟨info, -, -, -, hinfo, -⟩ := h.loops id hid
  exact h.numbered.isSentinel (Option.isSome_iff_exists.2 ⟨info, hinfo⟩)

/-- Where the two tensors enter and leave the loops. -/
theorem tensorAt : k.tensorAt load.inPort = .ok src ∧ k.tensorAt store.outPort = .ok dst := by
  have hload := h.lists.read load (mem_cons_of_mem p (mem_append_left _ h.first.1))
  have hstore := h.lists.read store (mem_cons_of_mem p (mem_append_left _ h.last.1))
  constructor
  · rw [Kernel.tensorAt, show k.expr load.inPort.expr = load from hload, Expr.inPort, Expr.operand,
      Expr.input, h.first.2.2]
    rfl
  · rw [Kernel.tensorAt, show k.expr store.outPort.expr = store from hstore, Expr.outPort,
      Expr.operand, Expr.output, h.last.2.2]
    rfl

/-- No loop of the kernel is fake. -/
theorem inFakeLoop (hy : y ∈ ys) : Markers.inFakeLoop (k.expr y.id) = false := by
  rw [h.lists.read y (mem_cons_of_mem p (mem_append_left _ hy)), Markers.inFakeLoop, h.tags y hy]
  refine decide_eq_false fun hlast => ?_
  have hreal := h.real (mem_of_getLast? hlast)
  cases hreal

variable {outer : List Amount} {size : Amount}

/-- How a loop over a dimension sees either tensor. -/
theorem faces (hshape : shape = outer ++ size :: sizes) (hrank : shape.length ≤ 2 ^ 45)
    (hsizes : ∀ d ∈ shape, 0 ≤ d)
    {q : Port} (hq : k.tensorAt q = .ok t) (hy : y ∈ ys) (hexpr : q.expr = y.id)
    (ht : t.toTensorType = .planar elementType shape) : Markers.Faces k q t outer size sizes where
  tensor := hq
  real := hexpr ▸ h.inFakeLoop hy
  type := by
    rw [ht, hshape]
    rfl
  rank := hshape ▸ hrank
  sizes d hd := hsizes d (by rw [hshape]; simp [hd])

/-- The parameters of a loop over a dimension. -/
theorem loopParams (hshape : shape = outer ++ size :: sizes) (hrank : shape.length ≤ 2 ^ 45)
    (hsizes : ∀ d ∈ shape, 0 ≤ d)
    {bytes : Amount} (hbytes : elementType.size? = some bytes) {info : LoopInfo} (hspans : info.Spans load store sizes)
    (id : LoopId) (around : Bool) :
    Markers.loopParams k id info around =
      .ok ({ id
             workAmount := info.workAmount
             increment := info.increment
             ptrIncrements := [Int64.ofNat (volume sizes), Int64.ofNat (volume sizes)]
             finalOffsets :=
               Markers.finalOffsets info.workAmount [Int64.ofNat (volume sizes), Int64.ofNat (volume sizes)]
             elementSizes := [bytes, bytes]
             numEntries := 1
             numExits := 1
             hasOuterLoop := around }, [src, dst]) := by
  obtain ⟨hsrc, hdst⟩ := h.tensorAt
  have hload := h.lists.read load (mem_cons_of_mem p (mem_append_left _ h.first.1))
  have hstore := h.lists.read store (mem_cons_of_mem p (mem_append_left _ h.last.1))
  have hentries : Markers.steppedEntries k [load.inPort] = .ok [load.inPort] := by
    refine Markers.steppedEntries_eq ?_ ?_ (pairwise_singleton _ _)
    · intro q hq
      rw [mem_singleton.1 hq, show k.expr load.inPort.expr = load from hload]
      exact .inl h.first.2.1
    · intro q hq
      exact ⟨src, mem_singleton.1 hq ▸ hsrc⟩
  have hexits : Markers.steppedExits k [store.outPort] = [store.outPort] := by
    rw [Markers.steppedExits, filter_singleton, show k.expr store.outPort.expr = store from hstore, h.last.2.1]
    rfl
  have hfaced : Markers.Faced k sizes.length ([load.inPort] ++ [store.outPort]) [src, dst]
      [(size, sizes), (size, sizes)] :=
    .cons (h.faces hshape hrank hsizes hsrc h.first.1 rfl h.types.1) rfl
      (.cons (h.faces hshape hrank hsizes hdst h.last.1 rfl h.types.2) rfl .nil)
  have hstep : Markers.stepOf size size sizes = Int64.ofNat (volume sizes) := if_neg fun hstill => hstill.2 hstill.1
  have hbytes' : ∀ t ∈ [src, dst], t.elementType.size = .ok bytes := by
    have hsize : ∀ t : Tensor, t.toTensorType = .planar elementType shape → t.elementType.size = .ok bytes := by
      intro t ht
      rw [show t.elementType = elementType from congrArg TensorType.elementType ht, ElementType.size, hbytes]
    intro t ht
    rcases mem_pair.1 ht with rfl | rfl
    · exact hsize t h.types.1
    · exact hsize t h.types.2
  have hparams := hfaced.loopParams info size (by rw [hspans.entries]; exact hentries)
    (by rw [hspans.exits]; exact hexits)
    hspans.dim hbytes' (by intro d hd; rcases mem_pair.1 hd with rfl | rfl <;> exact Int64.le_refl size)
    mem_cons_self id around
  simp only [map_cons, map_nil, hstep] at hparams
  exact hparams

end Kernel.Streaming

end KernelLoops
