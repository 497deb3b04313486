import KernelLoops.Proofs.Flows
import KernelLoops.Proofs.Copying

set_option autoImplicit false

/-! # Flows in tails

A tail runs a copy of a body: what the body makes for itself has new names, and memory is accessed a
few elements at a time. None of this changes what flows. Wherever the body has a flow of as many
lanes as the tail handles, the copy has one with the same lanes under the new names. -/

namespace KernelLoops

open List

variable {x : Expr} {xs : List Expr} {L : Layout} {table : List (TensorId × Tensor)} {c : Nat}
  {q : Shift} {t : Tensor}
  {i j n n' : TensorId}

variable {α : Type}

/-! ## New names -/

/-- The name of a tensor under a table of new names. -/
def newName (table : List (TensorId × Tensor)) (i : TensorId) : TensorId :=
  ((table.lookup i).map Tensor.id).getD i

theorem id_rename (table : List (TensorId × Tensor)) (t : Tensor) :
    (RangeCopy.rename table t).id = newName table t.id := by
  rw [RangeCopy.rename, newName]
  cases table.lookup t.id <;> rfl

theorem newName_of_none (h : table.lookup i = none) : newName table i = i := by
  rw [newName, h]
  rfl

theorem newName_of_some {u : Tensor} (h : table.lookup i = some u) : newName table i = u.id := by
  rw [newName, h]
  rfl

/-- Different tensors have different new names. -/
theorem newName_injective (htable : FreshTable table n n') (hi : i < n) (hj : j < n)
    (h : newName table i = newName table j) : i = j := by
  cases hlook : table.lookup i with
  | none =>
    rw [newName_of_none hlook] at h
    cases hlook' : table.lookup j with
    | none => rwa [newName_of_none hlook'] at h
    | some v =>
      rw [newName_of_some hlook'] at h
      exact absurd (h ▸ hi) (Nat.not_lt.2 (htable.fresh j v hlook').1)
  | some u =>
    rw [newName_of_some hlook] at h
    cases hlook' : table.lookup j with
    | none =>
      rw [newName_of_none hlook'] at h
      exact absurd (h ▸ hj) (Nat.not_lt.2 (htable.fresh i u hlook).1)
    | some v =>
      rw [newName_of_some hlook'] at h
      exact htable.injective i j u v hlook hlook' h

/-- Lanes can be carried over to new names. -/
theorem exists_renamed_lanes (htable : FreshTable table n n') (W : TensorId → Nat → α) :
    ∃ W' : TensorId → Nat → α, ∀ i < n, W' (newName table i) = W i := by
  classical
  refine ⟨fun j => if h : ∃ i, i < n ∧ newName table i = j then W h.choose else W j, fun i hi => ?_⟩
  have hex : ∃ k, k < n ∧ newName table k = newName table i := ⟨i, hi, rfl⟩
  obtain ⟨hlt, hname⟩ := hex.choose_spec
  show (if h : ∃ k, k < n ∧ newName table k = newName table i then W h.choose else W (newName table i)) = W i
  rw [dif_pos hex, newName_injective htable hlt hi hname]

/-- Every operand has a name below `n`. -/
def Below (n : TensorId) (xs : List Expr) : Prop :=
  ∀ x ∈ xs, (∀ t ∈ x.inputs, t.id < n) ∧ ∀ t ∈ x.outputs, t.id < n

theorem Below.tail (h : Below n (x :: xs)) : Below n xs :=
  fun y hy => h y (mem_cons_of_mem x hy)

theorem Below.mono (h : Below n xs) (hle : n ≤ n') : Below n' xs :=
  fun x hx => ⟨fun t ht => Nat.lt_of_lt_of_le ((h x hx).1 t ht) hle,
    fun t ht => Nat.lt_of_lt_of_le ((h x hx).2 t ht) hle⟩

/-- A layout that new names fit: only tensors without a block have them, and they have none
    either. -/
def Layout.Admits (L : Layout) (table : List (TensorId × Tensor)) : Prop :=
  ∀ i u, table.lookup i = some u → L.home i = none ∧ L.home u.id = none

theorem Layout.Admits.home (h : L.Admits table) (i : TensorId) :
    L.home (newName table i) = L.home i := by
  cases hlook : table.lookup i with
  | none => rw [newName_of_none hlook]
  | some u =>
    obtain ⟨hi, hu⟩ := h i u hlook
    rw [newName_of_some hlook, hi, hu]

theorem Layout.Admits.newName_of_home (h : L.Admits table) {b : Nat} (hi : L.home i = some b) :
    newName table i = i := by
  refine newName_of_none ?_
  cases hlook : table.lookup i with
  | none => rfl
  | some u =>
    rw [(h i u hlook).1] at hi
    cases hi

/-- Windows under new names. -/
theorem Layout.Admits.opens (h : L.Admits table) {b s k : Nat} (hopen : L.Opens q t.id b s k) :
    L.Opens q (RangeCopy.rename table t).id b s k := by
  rwa [id_rename, h.newName_of_home hopen.home]

namespace Flow

variable {A : Arithmetic α} {W W' : TensorId → Nat → α} {regs : List TensorId}
  {mems : List (TensorId × Nat)}

theorem inputs_rename (h : x.inputs = [t]) :
    (x.rename table).inputs = [RangeCopy.rename table t] := by
  simp [Expr.rename, h]

theorem outputs_rename (h : x.outputs = [t]) :
    (x.rename table).outputs = [RangeCopy.rename table t] := by
  simp [Expr.rename, h]

/-- Under new names the body has the lanes it had. -/
theorem rename (h : Flow A L q c W mems regs xs) (hL : L.Admits table) (hxs : Below n xs)
    (hW : ∀ i < n, W' (newName table i) = W i) :
    Flow A L q c W' (mems.map fun w => (newName table w.1, w.2)) (regs.map (newName table))
      (xs.map (Expr.rename table)) := by
  induction h with
  | nil regs => exact .nil _
  | @load regs x xs src out b s kind input output opens held value rest ih =>
    have hsrc : src.id < n := (hxs x mem_cons_self).1 src (by simp [input])
    have hout : out.id < n := (hxs x mem_cons_self).2 out (by simp [output])
    refine .load kind (inputs_rename input) (outputs_rename output) (hL.opens opens) ?_ (fun i hi => ?_) ?_
    · rw [id_rename]
      exact mem_map.2 ⟨_, held, rfl⟩
    · rw [id_rename, id_rename, hW _ hout, hW _ hsrc, value i hi]
    · rw [id_rename]
      exact ih hxs.tail
  | @broadcast regs x xs src out b s kind input output opens held value rest ih =>
    have hsrc : src.id < n := (hxs x mem_cons_self).1 src (by simp [input])
    have hout : out.id < n := (hxs x mem_cons_self).2 out (by simp [output])
    refine .broadcast kind (inputs_rename input) (outputs_rename output) (hL.opens opens) ?_ (fun i hi => ?_) ?_
    · rw [id_rename]
      exact mem_map.2 ⟨_, held, rfl⟩
    · rw [id_rename, id_rename, hW _ hout, hW _ hsrc, value i hi]
    · rw [id_rename]
      exact ih hxs.tail
  | @binary regs x xs left right out g kind input output op heldLeft heldRight value rest ih =>
    obtain ⟨hin, hout⟩ := hxs x mem_cons_self
    rw [input] at hin
    rw [output] at hout
    have hnames : (x.rename table).inputs = [RangeCopy.rename table left, RangeCopy.rename table right] := by
      simp [Expr.rename, input]
    refine .binary kind hnames (outputs_rename output) op ?_ ?_ (fun i hi => ?_) ?_
    · rw [id_rename]
      exact mem_map_of_mem heldLeft
    · rw [id_rename]
      exact mem_map_of_mem heldRight
    · rw [id_rename, id_rename, id_rename, hW _ (hout out (by simp)), hW _ (hin left (by simp)),
        hW _ (hin right (by simp)), value i hi]
    · rw [id_rename]
      exact ih hxs.tail
  | @store regs x xs src out b s kind input output opens held value apart rest ih =>
    have hsrc : src.id < n := (hxs x mem_cons_self).1 src (by simp [input])
    have hout : out.id < n := (hxs x mem_cons_self).2 out (by simp [output])
    refine .store kind (inputs_rename input) (outputs_rename output) (hL.opens opens) ?_
      (fun i hi => ?_) (fun w hw => ?_)
      (ih hxs.tail)
    · rw [id_rename]
      exact mem_map_of_mem held
    · rw [id_rename, id_rename, hW _ hout, hW _ hsrc, value i hi]
    · obtain ⟨v, hv, rfl⟩ := mem_map.1 hw
      rw [hL.home]
      exact apart v hv

end Flow

/-! ## Narrowed bodies -/

/-- The expression with another number of elements, if it handles several. -/
def Expr.resized (size : Amount) (x : Expr) : Expr :=
  if x.kind.isMemoryAccess && x.count > 1 then { x with count := size } else x

theorem Expr.resized_eq (size : Amount) (x : Expr) : ∃ count, x.resized size = { x with count } := by
  rw [resized]
  split
  · exact ⟨size, rfl⟩
  · exact ⟨x.count, rfl⟩

/-- Where no lane is to be filled, an expression is narrowed by resizing it. -/
theorem Expr.narrowed_eq (fillTails : Bool) (size : Amount) (hfills : x.fills = []) (n : TensorId) :
    x.narrowed fillTails size n = ([], x.resized size, n) := by
  have hports : ∀ ports, x.fillPorts size x.fills ports n = ([], x, n) := by
    intro ports
    induction ports with
    | nil => rfl
    | cons port ports ih => rw [fillPorts, hfills, lookup_nil, ← hfills, ih]
  rw [narrowed, resized]
  split
  · next hlanes =>
      have hkind : x.kind = .elementwise := by
        simp only [Tails.readsAllLanes, Bool.and_eq_true, decide_eq_true_eq] at hlanes
        exact hlanes.2.1
      rw [hports, hkind]
      rfl
  · split
    · rfl
    · rfl

theorem Code.narrowed_ofOps (fillTails : Bool) (size : Amount) (h : ∀ x ∈ xs, x.fills = [])
    (n : TensorId) :
    ((Code.ofOps xs .done).narrowed fillTails size n).1 = .ofOps (xs.map (Expr.resized size)) .done := by
  induction xs with
  | nil => rfl
  | cons x xs ih =>
    obtain ⟨hx, hxs⟩ := forall_mem_cons.1 h
    rw [ofOps, narrowed, x.narrowed_eq fillTails size hx]
    exact congrArg (Code.op (x.resized size)) (ih hxs)

/-- The memory accesses of a body handle more than one element each. -/
def Broad (xs : List Expr) : Prop := ∀ x ∈ xs, x.kind = .load ∨ x.kind = .store → 1 < x.count

/-- Resized memory accesses have the new number of elements. -/
theorem Counted.resized {size : Amount} (hsize : size.toInt = c) (hbroad : Broad xs) :
    Counted c (xs.map (Expr.resized size)) := by
  intro y hy hkind
  obtain ⟨x, hx, rfl⟩ := mem_map.1 hy
  obtain ⟨count, heq⟩ := x.resized_eq size
  rw [heq] at hkind
  have hresized : (x.kind.isMemoryAccess && decide (x.count > 1)) = true := by
    rw [decide_eq_true (hbroad x hx hkind)]
    rcases hkind with hkind | hkind <;> rw [show x.kind = _ from hkind] <;> rfl
  rw [Expr.resized, if_pos hresized]
  exact hsize

theorem stored_map {f : Expr → Expr} {g : Tensor → Tensor} (hkind : ∀ x, (f x).kind = x.kind)
    (houtputs : ∀ x, (f x).outputs = x.outputs.map g) (xs : List Expr) : stored (xs.map f) = (stored xs).map g := by
  rw [stored, flatMap_map, stored, map_flatMap]
  refine flatMap_congr fun x _ => ?_
  rw [hkind, houtputs]
  split <;> rfl

theorem stored_rename (table : List (TensorId × Tensor)) (xs : List Expr) :
    stored (xs.map (Expr.rename table)) = (stored xs).map (RangeCopy.rename table) :=
  stored_map (f := Expr.rename table) (fun _ => rfl) (fun _ => rfl) xs

theorem stored_resized (size : Amount) (xs : List Expr) :
    stored (xs.map (Expr.resized size)) = stored xs := by
  have hmap := stored_map (f := Expr.resized size) (g := id)
    (fun x => by obtain ⟨count, hx⟩ := x.resized_eq size; rw [hx])
    (fun x => by obtain ⟨count, hx⟩ := x.resized_eq size; rw [hx, map_id]) xs
  rwa [map_id] at hmap

/-- A flow does not look at the numbers of elements. -/
theorem Flow.resized {A : Arithmetic α} {W : TensorId → Nat → α} {regs : List TensorId}
    {mems : List (TensorId × Nat)}
    (h : Flow A L q c W mems regs xs) (size : Amount) : Flow A L q c W mems regs (xs.map (Expr.resized size)) := by
  have hcount : ∀ x : Expr, ∃ count, x.resized size = { x with count } := Expr.resized_eq size
  induction h with
  | nil regs => exact .nil regs
  | @load _ x _ _ _ _ _ kind input output opens held value _ ih =>
    obtain ⟨count, hx⟩ := hcount x
    rw [map_cons, hx]
    exact .load kind input output opens held value ih
  | @broadcast _ x _ _ _ _ _ kind input output opens held value _ ih =>
    obtain ⟨count, hx⟩ := hcount x
    rw [map_cons, hx]
    exact .broadcast kind input output opens held value ih
  | @binary _ x _ _ _ _ _ kind input output op heldLeft heldRight value _ ih =>
    obtain ⟨count, hx⟩ := hcount x
    rw [map_cons, hx]
    exact .binary kind input output op heldLeft heldRight value ih
  | @store _ x _ _ _ _ _ kind input output opens held value apart _ ih =>
    obtain ⟨count, hx⟩ := hcount x
    rw [map_cons, hx]
    exact .store kind input output opens held value apart ih

end KernelLoops
