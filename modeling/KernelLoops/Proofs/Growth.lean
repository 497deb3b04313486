import KernelLoops.Proofs.Built
import KernelLoops.Proofs.Lowering

set_option autoImplicit false

/-! # How a kernel grows

Splitting tails only adds to a kernel: expressions, names, loops. A piece of the list changes into
one that uses the same tensors and fresh ones, and the markers around it stay tied. -/

namespace KernelLoops

open List

variable {c : Code} {b e y : Expr} {xs ys post pre : List Expr} {n : TensorId}

/-! ## What the pass never takes away -/

/-- The second kernel has all the first one has: its kinds, its producers and its loops. -/
structure Kernel.Grown (k k' : Kernel) : Prop where
  config : k'.config = k.config
  size : k.exprs.size ≤ k'.exprs.size
  next : k.nextTensor ≤ k'.nextTensor
  kinds : ∀ i < k.exprs.size, (k'.expr i).kind = (k.expr i).kind
  produced : ∃ more, k'.produced = k.produced ++ more ∧
    ∀ l ∈ more, k.nextTensor ≤ l.tensor ∨ ∃ l0 ∈ k.produced, l0.tensor = l.tensor
  loops : ∀ id, (k.loops.get? id).isSome → (k'.loops.get? id).isSome

namespace Kernel.Grown

variable {k k' k'' : Kernel}

theorem refl (k : Kernel) : k.Grown k :=
  ⟨rfl, Nat.le_refl _, Nat.le_refl _, fun _ _ => rfl, ⟨[], by simp⟩, fun _ h => h⟩

theorem trans (h : k.Grown k') (h' : k'.Grown k'') : k.Grown k'' where
  config := h'.config.trans h.config
  size := Nat.le_trans h.size h'.size
  next := Nat.le_trans h.next h'.next
  kinds i hi := (h'.kinds i (Nat.lt_of_lt_of_le hi h.size)).trans (h.kinds i hi)
  produced := by
    obtain ⟨more, hmore, hold⟩ := h.produced
    obtain ⟨more', hmore', hold'⟩ := h'.produced
    refine ⟨more ++ more', by rw [hmore', hmore, append_assoc], fun l hl => ?_⟩
    rcases mem_append.1 hl with hl | hl
    · exact hold l hl
    · rcases hold' l hl with hl | ⟨l0, hl0, htensor⟩
      · exact .inl (Nat.le_trans h.next hl)
      · rw [hmore, mem_append] at hl0
        rcases hl0 with hl0 | hl0
        · exact .inr ⟨l0, hl0, htensor⟩
        · exact htensor ▸ hold l0 hl0
  loops id hid := h'.loops id (h.loops id hid)

/-- Making fresh tensors and a new expression whose outputs are fresh or produced already. -/
theorem added {next : TensorId} (hnext : k.nextTensor ≤ next) (mark : Option ExprId)
    (hid : y.id = k.exprs.size)
    (hout : ∀ t ∈ y.outputIds, k.nextTensor ≤ t ∨ ∃ l ∈ k.produced, l.tensor = t) :
    k.Grown (({ k with nextTensor := next } : Kernel).added y mark) where
  config := rfl
  size := by simp [Kernel.added, Edit.placed]
  next := hnext
  kinds i hi := by
    have hread : (({ k with nextTensor := next } : Kernel).added y mark).expr i = k.expr i :=
      (Kernel.expr_push { k with nextTensor := next } y i).trans (if_neg (Nat.ne_of_lt hi))
    rw [hread]
  produced := by
    refine ⟨Edit.links y.id .output y.outputs, Kernel.added_produced mark hid, fun l hl => ?_⟩
    obtain ⟨-, -, t, ht, htensor⟩ := Edit.mem_links.1 hl
    exact htensor ▸ hout t.id (mem_map_of_mem (mem_of_getElem? ht))
  loops _ h := h

/-- Changing expressions in anything but their kinds. -/
theorem of_exprs {exprs : Array Expr} {consumed : List Link} (hsize : exprs.size = k.exprs.size)
    (hkinds : ∀ i, (({ k with exprs, consumed } : Kernel).expr i).kind = (k.expr i).kind) :
    k.Grown { k with exprs, consumed } :=
  ⟨rfl, Nat.le_of_eq hsize.symm, Nat.le_refl _, fun i _ => hkinds i, ⟨[], by simp⟩, fun _ h => h⟩

/-- What first produced a tensor still does, and its kind has not changed. -/
theorem any_producer? (h : k.Grown k') (hk : k.Lists xs) {t : TensorId} (ht : t < k.nextTensor)
    (kind : OpKind) :
    (k'.producer? t).any (fun p => p.kind = kind) = (k.producer? t).any fun p => p.kind = kind := by
  obtain ⟨more, hmore, hold⟩ := h.produced
  unfold Kernel.producer?
  cases hp : k.producers t with
  | cons p ps =>
    have hmade : p.expr < k.exprs.size := by
      obtain ⟨x, hx, hpx, -⟩ := hk.mem_producers.1 (hp ▸ mem_cons_self : p ∈ k.producers t)
      exact hpx ▸ hk.made x hx
    have hp' : k'.producers t = p :: (ps ++ ((more.filter (·.tensor = t)).map Link.port)) := by
      rw [Kernel.producers, hmore, filter_append, map_append]
      rw [Kernel.producers] at hp
      rw [hp, cons_append]
    rw [hp']
    simp [h.kinds p.expr hmade]
  | nil =>
    -- no later link names a tensor that was known and that nothing produced
    have hnone : ∀ l ∈ k.produced, l.tensor ≠ t := by
      intro l hl hlt
      have hmem : l.port ∈ k.producers t :=
        mem_map.2 ⟨l, mem_filter.2 ⟨hl, decide_eq_true hlt⟩, rfl⟩
      rw [hp] at hmem
      cases hmem
    have hp' : k'.producers t = [] := by
      rw [Kernel.producers, map_eq_nil_iff, filter_eq_nil_iff, hmore]
      intro l hl hlt
      have hlt := of_decide_eq_true hlt
      rcases mem_append.1 hl with hl | hl
      · exact hnone l hl hlt
      · rcases hold l hl with hfresh | ⟨l0, hl0, htensor⟩
        · exact absurd ht (Nat.not_lt.2 (hlt ▸ hfresh))
        · exact hnone l0 hl0 (htensor.trans hlt)
    rw [hp']
    rfl

end Kernel.Grown

/-! ## How a piece of the list changes -/

/-- The second list uses only tensors the first one uses in the same way, and fresh ones from `n`
    on; and the same tensors below `n` go into buffers. -/
structure Evolves (n : TensorId) (xs ys : List Expr) : Prop where
  inputs : ∀ y ∈ ys, ∀ t ∈ y.inputIds, n ≤ t ∨ ∃ x ∈ xs, t ∈ x.inputIds
  outputs : ∀ y ∈ ys, ∀ t ∈ y.outputIds, n ≤ t ∨ ∃ x ∈ xs, t ∈ x.outputIds
  buffers : ∀ t < n, (∃ y ∈ ys, y.kind = .buffer ∧ t ∈ y.inputIds) ↔
    ∃ x ∈ xs, x.kind = .buffer ∧ t ∈ x.inputIds

namespace Evolves

variable {n' : TensorId} {zs : List Expr}

theorem refl (n : TensorId) (xs : List Expr) : Evolves n xs xs :=
  ⟨fun y hy _ ht => .inr ⟨y, hy, ht⟩, fun y hy _ ht => .inr ⟨y, hy, ht⟩, fun _ _ => Iff.rfl⟩

theorem trans (h : Evolves n xs ys) (h' : Evolves n' ys zs) (hn : n ≤ n') : Evolves n xs zs where
  inputs z hz t ht := by
    rcases h'.inputs z hz t ht with ht | ⟨y, hy, ht⟩
    · exact .inl (Nat.le_trans hn ht)
    · exact h.inputs y hy t ht
  outputs z hz t ht := by
    rcases h'.outputs z hz t ht with ht | ⟨y, hy, ht⟩
    · exact .inl (Nat.le_trans hn ht)
    · exact h.outputs y hy t ht
  buffers t ht := (h'.buffers t (Nat.lt_of_lt_of_le ht hn)).trans (h.buffers t ht)

theorem append {xs' ys' : List Expr} (h : Evolves n xs ys) (h' : Evolves n xs' ys') :
    Evolves n (xs ++ xs') (ys ++ ys') where
  inputs y hy t ht := by
    rcases mem_append.1 hy with hy | hy
    · exact (h.inputs y hy t ht).imp_right fun ⟨x, hx, hxt⟩ => ⟨x, mem_append_left _ hx, hxt⟩
    · exact (h'.inputs y hy t ht).imp_right fun ⟨x, hx, hxt⟩ => ⟨x, mem_append_right _ hx, hxt⟩
  outputs y hy t ht := by
    rcases mem_append.1 hy with hy | hy
    · exact (h.outputs y hy t ht).imp_right fun ⟨x, hx, hxt⟩ => ⟨x, mem_append_left _ hx, hxt⟩
    · exact (h'.outputs y hy t ht).imp_right fun ⟨x, hx, hxt⟩ => ⟨x, mem_append_right _ hx, hxt⟩
  buffers t ht := by
    have hl := h.buffers t ht
    have hr := h'.buffers t ht
    simp only [mem_append, or_and_right, exists_or] at hl hr ⊢
    rw [hl, hr]

/-- An expression of the same kind with the same operands. -/
theorem of_operands {x : Expr} (n : TensorId) (hkind : y.kind = x.kind) (hin : y.inputs = x.inputs)
    (hout : y.outputs = x.outputs) : Evolves n [x] [y] := by
  have hinputs : y.inputIds = x.inputIds := congrArg (List.map Tensor.id) hin
  have houtputs : y.outputIds = x.outputIds := congrArg (List.map Tensor.id) hout
  constructor
  · simp +contextual [hinputs]
  · simp +contextual [houtputs]
  · simp [hinputs, hkind]

/-- The list around the piece stays. -/
theorem within (h : Evolves n xs ys) (pre post : List Expr) :
    Evolves n (pre ++ xs ++ post) (pre ++ ys ++ post) :=
  ((refl n pre).append h).append (refl n post)

end Evolves

/-- The names are those that the expressions of the list read. -/
abbrev ReadIn (out : List TensorId) (xs : List Expr) : Prop :=
  ∀ i, i ∈ out ↔ ∃ x ∈ xs, i ∈ x.inputIds

namespace ReadIn

variable {out names : List TensorId}

theorem expr (x : Expr) : ReadIn x.inputIds [x] := by simp [ReadIn]

theorem code (c : Code) : ReadIn c.inputIds c.flatten := by simp [ReadIn, Code.inputIds]

/-- What is read when a piece comes between the two parts of a list. -/
theorem insert (h : ReadIn out (pre ++ post)) (hx : ReadIn names xs) :
    ReadIn (names ++ out) (pre ++ xs ++ post) := by
  intro i
  simp only [mem_append, h i, hx i, or_and_right, exists_or]
  rw [or_left_comm, or_assoc]

end ReadIn

/-- Markers outside a piece that evolves stay tied. -/
theorem Code.Tied.evolves (h : Tied (pre ++ xs ++ post) b e) (hb : b ∉ xs) (he : e ∉ xs)
    (hev : Evolves n xs ys)
    (hknown : ∀ t ∈ b.outputIds, t < n) : Tied (pre ++ ys ++ post) b e := by
  obtain ⟨t0, hout0, -, hmakes, hreads⟩ := h.tie
  have hlt : t0.id < n := hknown t0.id (by simp [Expr.outputIds, hout0])
  refine h.frame fun t hout hlast y hy => ?_
  obtain rfl : t = t0 := by simpa using hout.symm.trans hout0
  simp only [mem_append] at hy
  rcases hy with (hy | hy) | hy
  · exact .inl (by simp [hy])
  · refine .inr ⟨fun u hu hid => ?_, fun u hu hid => ?_⟩
    · rcases hev.outputs y hy u.id (mem_map_of_mem hu) with hge | ⟨x, hx, hxu⟩
      · exact absurd hlt (Nat.not_lt.2 (hid ▸ hge))
      · obtain ⟨v, hv, hvid⟩ := mem_map.1 hxu
        exact hb (hmakes x (by simp [hx]) v hv (hvid.trans hid) ▸ hx)
    · rcases hev.inputs y hy u.id (mem_map_of_mem hu) with hge | ⟨x, hx, hxu⟩
      · exact absurd hlt (Nat.not_lt.2 (hid ▸ hge))
      · obtain ⟨v, hv, hvid⟩ := mem_map.1 hxu
        exact he (hreads x (by simp [hx]) v hv (hvid.trans hid) ▸ hx)
  · exact .inl (by simp [hy])

/-- Code beside a piece that evolves stays nested. -/
theorem Code.Nested.evolves (hc : c.Nested (pre ++ xs ++ post)) (hev : Evolves n xs ys)
    (hother : ∀ y ∈ c.flatten, y ∉ xs) (hknown : ∀ y ∈ c.flatten, ∀ t ∈ y.outputIds, t < n) :
    c.Nested (pre ++ ys ++ post) :=
  hc.imp fun b hb e he htied => htied.evolves (hother b hb) (hother e he) hev (hknown b hb)

/-- The closing marker of a loop may get other parameters. -/
theorem Code.Nested.withParams
    (hc : (Code.loop b e c .done).Nested (pre ++ (Code.loop b e c .done).flatten ++ post))
    (hnodup : (pre ++ (Code.loop b e c .done).flatten ++ post).Nodup) (l : LoopParams) :
    (Code.loop b (e.withParams l) c .done).Nested
      (pre ++ (Code.loop b (e.withParams l) c .done).flatten ++ post) := by
  have hlist : ∀ e' : Expr, pre ++ (Code.loop b e' c .done).flatten ++ post =
      (pre ++ b :: c.flatten) ++ [e'] ++ post := fun e' => by simp [Code.flatten]
  rw [hlist] at hc hnodup ⊢
  obtain ⟨htied, hbody, -⟩ := hc
  have hlast : e ∉ (pre ++ b :: c.flatten) ++ post := by
    rw [append_assoc, singleton_append, nodup_middle, nodup_cons] at hnodup
    exact hnodup.1
  refine ⟨?_, ?_, trivial⟩
  · obtain ⟨hopens, hcloses, t, hout, htie, hmakes, hreads⟩ := htied
    have hcase : ∀ x, x ∈ (pre ++ b :: c.flatten) ++ [e.withParams l] ++ post →
        x = e.withParams l ∨ x ∈ (pre ++ b :: c.flatten) ++ post := by
      intro x hx
      simp only [mem_append, mem_singleton] at hx ⊢
      tauto
    have hold : ∀ x ∈ (pre ++ b :: c.flatten) ++ post, x ∈ (pre ++ b :: c.flatten) ++ [e] ++ post := by
      intro x hx
      simp only [mem_append] at hx ⊢
      tauto
    refine ⟨hopens, hcloses, t, hout, htie, fun x hx u hu hid => ?_, fun x hx u hu hid => ?_⟩
    · rcases hcase x hx with rfl | hx
      · have heb : e = b := hmakes e (by simp) u hu hid
        rw [← heb, hcloses] at hopens
        cases hopens
      · exact hmakes x (hold x hx) u hu hid
    · rcases hcase x hx with rfl | hx
      · rfl
      · exact absurd (hreads x (hold x hx) u hu hid ▸ hx) hlast
  · refine hbody.imp fun b' hb' e' he' htied' => ?_
    have hother : ∀ x ∈ c.flatten, x ∉ [e] := fun x hx hxe =>
      hlast (mem_singleton.1 hxe ▸ by simp [hx])
    obtain ⟨t, hout, -, -, -⟩ := htied'.tie
    have hev : Evolves (t.id + 1) [e] [e.withParams l] := .of_operands _ rfl rfl rfl
    refine htied'.evolves (hother b' hb') (hother e' he') hev fun i hi => ?_
    rw [Expr.outputIds, hout, map_singleton, mem_singleton] at hi
    exact hi ▸ Nat.lt_succ_self _

theorem Evolves.withParams (n : TensorId) (b e : Expr) (c : Code) (l : LoopParams) :
    Evolves n (Code.loop b e c .done).flatten (Code.loop b (e.withParams l) c .done).flatten := by
  have hend : Evolves n [e] [e.withParams l] := .of_operands n rfl rfl rfl
  simpa [Code.flatten] using (Evolves.refl n (b :: c.flatten)).append hend

/-- The body of a loop may change. -/
theorem Evolves.inLoop {c' : Code} (h : Evolves n c.flatten c'.flatten) (b e : Expr) :
    Evolves n (Code.loop b e c .done).flatten (Code.loop b e c' .done).flatten := by
  have hbody := ((Evolves.refl n [b]).append h).append (Evolves.refl n [e])
  simpa [Code.flatten] using hbody

end KernelLoops
