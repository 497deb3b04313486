import KernelLoops.Proofs.Raising
import KernelLoops.Proofs.Setup

set_option autoImplicit false

/-! # Kernels with one tower

A kernel that runs one piece in its loops between its parameters and its results can be lowered, and
a machine can be set up for it. Where the piece carries elements through, the machine is poised to
paint (`Kernel.HasTower.poised`). -/

namespace KernelLoops

open List

variable {k : Kernel} {c d : Code} {x : Expr} {xs : List Expr} {pr : Expr × Expr} {L : Layout}
  {args : List (TensorId × Nat)}

/-! ## Lowering code around a loop -/

namespace Code

/-- Expressions before code stay as they are, and what they read is read outside it. -/
theorem lower_ofOps_append (m : Kernel) (xs : List Expr) (c : Code) (out : List TensorId)
    (n : TensorId) :
    ∃ out', (∀ i ∈ out, i ∈ out') ∧ (ofOps xs c).lower m out n =
      (ofOps xs (c.lower m out' n).1, (c.lower m out' n).2) := by
  induction xs generalizing out with
  | nil => exact ⟨out, fun _ hi => hi, rfl⟩
  | cons x xs ih =>
    obtain ⟨out', hsub, heq⟩ := ih (x.inputIds ++ out)
    refine ⟨out', fun i hi => hsub i (mem_append_right _ hi), ?_⟩
    rw [ofOps, lower_op, heq]
    rfl

/-- A loop is lowered on its own; what is read behind it is read outside it. -/
theorem lower_loop_append (m : Kernel) (b e : Expr) (body rest : Code) (out : List TensorId)
    (n : TensorId) :
    ∃ out' n', n ≤ n' ∧ (∀ i ∈ out, i ∈ out') ∧ ((loop b e body rest).lower m out n).1 =
      ((loop b e body done).lower m (rest.inputIds ++ out) n).1.append (rest.lower m out' n').1 := by
  let inner := body.lower m (b.inputIds ++ (e.inputIds ++ (rest.inputIds ++ out))) n
  let split := splitLoop m b e inner.1 (rest.inputIds ++ out) inner.2
  refine ⟨split.1.inputIds ++ out, split.2, ?_, fun i hi => mem_append_right _ hi, ?_⟩
  · exact Nat.le_trans (le_lower m body _ n) (le_splitLoop m b e _ _ _)
  · rw [Tower.lower_loop_done]
    exact congrArg Prod.fst (lower_loop m b e body rest out n)

theorem nested_of_append (h : (c.append d).Nested xs) : c.Nested xs ∧ d.Nested xs := by
  induction c with
  | done => exact ⟨trivial, h⟩
  | op x rest ih => exact ⟨⟨h.1, (ih h.2).1⟩, (ih h.2).2⟩
  | loop b e body rest _ ih => exact ⟨⟨h.1, h.2.1, (ih h.2.2).1⟩, (ih h.2.2).2⟩

/-- The markers that wrap code are listed with it. -/
theorem mem_flatten_wrap {ms : List (Expr × Expr)} (hpr : pr ∈ ms) :
    pr.1 ∈ (wrap ms c).flatten ∧ pr.2 ∈ (wrap ms c).flatten := by
  induction ms with
  | nil => cases hpr
  | cons pr' ms ih =>
    simp only [wrap, flatten, mem_cons, mem_append]
    rcases mem_cons.1 hpr with rfl | hpr
    · exact ⟨.inl rfl, .inr (.inr (.inl rfl))⟩
    · exact ⟨.inr (.inl (ih hpr).1), .inr (.inl (ih hpr).2)⟩

theorem Nested.isMarker_wrap {ms : List (Expr × Expr)} (h : (wrap ms c).Nested xs) (hpr : pr ∈ ms) :
    pr.1.kind.isMarker = true ∧ pr.2.kind.isMarker = true := by
  induction ms with
  | nil => cases hpr
  | cons pr' ms ih =>
    rcases mem_cons.1 hpr with rfl | hpr
    · exact ⟨by rw [h.1.opens]; rfl, by rw [h.1.closes]; rfl⟩
    · exact ih h.2.1 hpr

end Code

/-! ## Kernels without buffers -/

theorem Buffers.color_of_none (h : k.ofKind .buffer = []) : Buffers.color k = .ok false k := by
  unfold Buffers.color
  rw [get_bind_run, h]
  rfl

theorem Buffers.place_of_none (h : k.ofKind .buffer = []) :
    Buffers.place k = .ok false { k with scratchSize := 0 } := by
  unfold Buffers.place
  rw [get_bind_run, h]
  rfl

/-! ## Kernels with one tower -/

/-- The kernel runs one piece in its loops between its parameters and its results. -/
structure Kernel.HasTower (k : Kernel) (front body back : Piece) (operands : List Tensor)
    (steps : List Amount → List Amount) : Prop where
  pieces : k.Pieces [front, body, back]
  sound : body.Sound k operands steps (back.body.flatMap Expr.inputIds)
  parameters : ∀ x ∈ front.body, x.kind = .parameter
  results : ∀ x ∈ back.body, x.kind = .result
  outside : front.sizes = [] ∧ back.sizes = []

namespace Kernel.HasTower

variable {front body back : Piece} {operands : List Tensor} {steps : List Amount → List Amount}
  (h : k.HasTower front body back operands steps)

include h

theorem static : k.Static := by
  refine h.pieces.static fun p hp size hsize inner => ?_
  simp only [mem_cons, not_mem_nil, or_false] at hp
  rcases hp with rfl | rfl | rfl
  · rw [h.outside.1] at hsize
    cases hsize
  · exact h.sound.static hsize inner
  · rw [h.outside.2] at hsize
    cases hsize

theorem mem_sequence (hx : x ∈ body.body) : x ∈ k.sequence :=
  h.pieces.grouped.mem_sequence (by simp) hx

theorem below : Below k.nextTensor body.body := by
  intro x hx
  have hknown := h.pieces.plain.lists.known x (h.mem_sequence hx)
  exact ⟨fun t ht => hknown t (.inl ht), fun t ht => hknown t (.inr ht)⟩

theorem known {t : Tensor} (ht : t ∈ operands) : t.id < k.nextTensor :=
  h.sound.known h.pieces.plain.lists (fun _ hx => h.mem_sequence hx) ht

end Kernel.HasTower

/-- The code `c'` of the lowered kernel `k'`: the parameters, the tower `c` and the results. -/
structure Kernel.LowersTower (k m k' : Kernel) (front body back : Piece) (operands : List Tensor)
    (steps : List Amount → List Amount) (ms : List (Expr × Expr)) (tail : List Expr)
    (out : List TensorId) (n : TensorId)
    (c c' : Code) : Prop where
  lists : k'.Lists c'.flatten
  nested : c'.Nested c'.flatten
  bare : c'.bare = (Code.ofOps front.body (c.append (.ofOps back.body .done))).bare
  raised : body.Raised k m operands steps ms tail out n c
  read : ∀ i ∈ back.body.flatMap Expr.inputIds, i ∈ out

namespace Kernel.HasTower

variable {front body back : Piece} {operands : List Tensor} {steps : List Amount → List Amount}

/-- A piece that lies in no loop gets no markers. -/
theorem unmarked {p : Piece} (hp : p.sizes = []) {outer : Bool} {ids : List LoopId}
    {ms : List (Expr × Expr)}
    (h : p.MarkedBy k outer p.sizes ids ms) : ms = [] := by
  rw [hp] at h
  cases h
  rfl

/-- A kernel with one tower can be lowered. -/
theorem lower (h : k.HasTower front body back operands steps) :
    ∃ changed m changed' k' ms tail out n c c', Markers.run k = .ok changed m ∧ Tails.run m = .ok changed' k' ∧
      k.LowersTower m k' front body back operands steps ms tail out n c c' := by
  obtain ⟨changed, m, inserted, c, hrun, hm, hassembles⟩ := h.pieces.mark fun p hp id hid => by
    simp only [mem_cons, not_mem_nil, or_false] at hp
    rcases hp with rfl | rfl | rfl
    · rw [(h.pieces.sits p (by simp)).loops_eq_nil h.outside.1] at hid
      cases hid
    · exact h.sound.insertable hid
    · rw [(h.pieces.sits p (by simp)).loops_eq_nil h.outside.2] at hid
      cases hid
  have hwhole := hm.whole h.pieces.plain.exprs h.static
  obtain ⟨c', k', changed', htails, hlists, hnested, hbare, -⟩ :=
    Tails.run_eq hm.lists hm.nested (hm.loops ▸ h.pieces.plain.loops)
      (hm.registered fun x hx => (h.pieces.plain.exprs x hx).tags) fun e he hkind => by
        obtain ⟨l, hl⟩ := hwhole.of_mem hm.nested he hkind
        exact ⟨l, hl.closes.params, fun _ => hl.ready fun t ht => hm.lists.known e he t (.inl ht)⟩
  cases hassembles with
  | @cons _ _ frontMarkers _ hfront hothers =>
  cases hothers with
  | @cons _ _ ms _ hbody hothers =>
  cases hothers with
  | @cons _ _ backMarkers _ hback hothers =>
  cases hothers
  obtain rfl := unmarked h.outside.1 hfront
  obtain rfl := unmarked h.outside.2 hback
  obtain ⟨htower, hends⟩ := hbody.tower h.sound [] rfl
  obtain ⟨b, e, ms, rfl⟩ : ∃ b e ms', ms = (b, e) :: ms' := by
    obtain ⟨size, sizes, hsizes⟩ := exists_cons_of_ne_nil h.sound.levels
    rw [hsizes] at htower
    cases htower
    exact ⟨_, _, _, rfl⟩
  -- the code is the parameters, a loop and the results
  have hcode : (Code.wrap [] (.ofOps front.body .done)).append
    ((Code.wrap ((b, e) :: ms) (.ofOps body.body .done)).append
      ((Code.wrap [] (.ofOps back.body .done)).append .done)) =
        .ofOps front.body (.loop b e (.wrap ms (.ofOps body.body .done)) (.ofOps back.body .done)) := by
    rw [Code.append_done]
    exact Code.append_ofOps front.body .done _
  rw [hcode] at hbare hm
  have hwrap : (Code.wrap ((b, e) :: ms) (.ofOps body.body .done)).Nested _ :=
    (Code.nested_of_append (Code.nested_of_append (c := .ofOps front.body .done) (hcode ▸ hm.nested)).2).1
  obtain ⟨out0, -, hlower0⟩ := Code.lower_ofOps_append m front.body
    (.loop b e (.wrap ms (.ofOps body.body .done)) (.ofOps back.body .done)) [] m.nextTensor
  obtain ⟨out1, n1, -, -, hlower1⟩ := Code.lower_loop_append m b e (.wrap ms (.ofOps body.body .done))
    (.ofOps back.body .done) out0 m.nextTensor
  have hread : ∀ i ∈ back.body.flatMap Expr.inputIds, i ∈ (Code.ofOps back.body .done).inputIds ++ out0 := by
    intro i hi
    refine mem_append_left _ ?_
    rw [Code.inputIds, Code.flatten_ofOps]
    simpa [Code.flatten] using hi
  have hties : ∀ pr ∈ (b, e) :: ms, ∀ t ∈ pr.1.outputs ++ pr.2.outputs, k.nextTensor ≤ t.id := by
    intro pr hpr t ht
    obtain ⟨hmarker, hmarker'⟩ := hwrap.isMarker_wrap hpr
    have hflat : ∀ x ∈ (Code.wrap ((b, e) :: ms) (.ofOps body.body .done)).flatten,
        x ∈ (Code.ofOps front.body
          (.loop b e (.wrap ms (.ofOps body.body .done)) (.ofOps back.body .done))).flatten := by
      intro x hx
      rw [← hcode, Code.flatten_append, Code.flatten_append]
      exact mem_append_right _ (mem_append_left _ hx)
    obtain ⟨hmem, hmem'⟩ := Code.mem_flatten_wrap (c := .ofOps body.body .done) hpr
    rcases mem_append.1 ht with ht | ht
    · exact hm.le_outputs h.pieces.plain.unmarked (hflat _ hmem) hmarker ht
    · exact hm.le_outputs h.pieces.plain.unmarked (hflat _ hmem') hmarker' ht
  obtain ⟨tail, hlowers⟩ := htower.exists_lowersTo h.sound.levels h.sound.plain m
    (Piece.Raised.kept h.sound hends hties hread fun t ht => h.known ht) m.nextTensor
  refine ⟨changed, m, changed', k', (b, e) :: ms, tail, _, _, _, c', hrun, htails, hlists, hnested, ?_,
    ⟨hends, fun pr hpr => hwrap.isMarker_wrap hpr, hties, hlowers, hm.next⟩, hread⟩
  rw [hbare, hlower0, hlower1, Code.lower_ofOps]
  rfl

end Kernel.HasTower

/-! ## Running a tower -/

variable {α : Type}

theorem Code.turns_append (hc : c.Turns L) (hd : d.Turns L) : (c.append d).Turns L := by
  induction c with
  | done => exact hd
  | op x rest ih => exact ih hc
  | loop b e body rest _ ih => exact ⟨hc.1, hc.2.1, ih hc.2.2⟩

theorem OpKind.of_isMarker {kind : OpKind} (h : kind.isMarker = true) : kind = .loopBegin ∨
    kind = .loopEnd := by
  cases kind <;> first | exact .inl rfl | exact .inr rfl | cases h

namespace Kernel.LowersTower

variable {m k' : Kernel} {front body back : Piece} {operands : List Tensor}
  {steps : List Amount → List Amount}
  {ms : List (Expr × Expr)} {tail : List Expr} {out : List TensorId} {n : TensorId} {c' : Code}
  (hl : k.LowersTower m k' front body back operands steps ms tail out n c c')
  (h : k.HasTower front body back operands steps)

include hl

theorem flatten_bare : (front.body ++ (c.flatten ++ back.body)).map Expr.bare = c'.flatten.map Expr.bare := by
  have hflat : (Code.ofOps front.body (c.append (.ofOps back.body .done))).flatten =
      front.body ++ (c.flatten ++ back.body) := by
    simp [Code.flatten_append, Code.flatten]
  rw [← hflat, ← Code.flatten_map, ← Code.flatten_map]
  exact congrArg Code.flatten hl.bare.symm

/-- What is in the lowered kernel is, up to numbers, tags and names of loops, in its interface or in
    the tower. -/
theorem of_mem (hx : x ∈ c'.flatten) : ∃ y, y.bare = x.bare ∧
    (y ∈ front.body ∨ y ∈ c.flatten ∨ y ∈ back.body) := by
  have hmem : x.bare ∈ (front.body ++ (c.flatten ++ back.body)).map Expr.bare := by
    rw [hl.flatten_bare]
    exact mem_map_of_mem hx
  obtain ⟨y, hy, hbare⟩ := mem_map.1 hmem
  rw [mem_append, mem_append] at hy
  exact ⟨y, hbare, hy⟩

theorem mem {y : Expr} (hy : y ∈ c.flatten) : ∃ x ∈ c'.flatten, y.bare = x.bare := by
  have hmem : y.bare ∈ c'.flatten.map Expr.bare := by
    rw [← hl.flatten_bare]
    exact mem_map_of_mem (mem_append_right _ (mem_append_left _ hy))
  obtain ⟨x, hx, hbare⟩ := mem_map.1 hmem
  exact ⟨x, hx, hbare.symm⟩

include h

/-- What the tower holds asks for no arguments. -/
theorem quiet (hx : x ∈ c.flatten) : (x.kind ≠ .parameter ∧ x.kind ≠ .result ∧ x.kind ≠ .buffer) ∧
    (x.kind.isMarker = false → ∀ t ∈ x.inputs ++ x.outputs, t.elementType = .float32) := by
  cases hmarker : x.kind.isMarker with
  | true =>
    refine ⟨?_, fun hnot => by cases hnot⟩
    rcases OpKind.of_isMarker hmarker with hk | hk <;> rw [hk] <;> decide
  | false =>
    obtain ⟨hkind, hfloat, -⟩ := hl.raised.mem_flatten h.sound h.below hx hmarker
    exact ⟨hkind, fun _ => hfloat⟩

theorem asks {room : Nat → Nat} {inputs outputs : Nat}
    (hasks : Asks room inputs outputs 0 0 (front.body ++ back.body) args) :
    Asks room inputs outputs 0 0 c'.flatten args :=
  (hasks.insert fun _ hy => hl.quiet h hy).of_bare hl.flatten_bare

theorem noBuffers : k'.ofKind .buffer = [] := by
  rw [Kernel.ofKind, hl.lists.order]
  refine filter_eq_nil_iff.2 fun e he => ?_
  obtain ⟨x, hx, rfl⟩ := mem_map.1 he
  rw [hl.lists.read x hx, decide_eq_true_eq]
  obtain ⟨y, hbare, hy⟩ := hl.of_mem hx
  rw [Expr.eq_of_bare hbare]
  show y.kind ≠ .buffer
  rcases hy with hy | hy | hy
  · rw [h.parameters y hy]
    decide
  · exact (hl.quiet h hy).1.2.2
  · rw [h.results y hy]
    decide

/-- The lanes of the lowered kernel fit in memory, and are enough for every run of the tower. -/
theorem lanes (hsmall : body.inc.trips ≤ 2 ^ 46 ∨
    (body.sizes.getLast h.sound.levels).trips ≤ 2 ^ 46) :
    ∃ lanes, storage 4 (widest 1 c'.flatten) = .ok lanes ∧
      ∀ index count last, Spot body.inc body.sizes index count last → count ≤ lanes := by
  obtain ⟨hone, hall, hsome⟩ := widest_spec 1 c'.flatten
  have hpos : 1 ≤ (widest 1 c'.flatten).toInt := Amount.le_iff.1 hone
  have hbound : (widest 1 c'.flatten).toInt.toNat ≤ 2 ^ 46 := by
    rcases hsome with hsame | ⟨x, hx, hmem, hcount⟩
    · rw [hsame]
      decide
    · obtain ⟨y, hbare, hy⟩ := hl.of_mem hx
      rw [hcount]
      rw [Expr.eq_of_bare hbare] at hmem ⊢
      replace hmem : y.kind.isMemoryAccess = true := hmem
      show y.count.toInt.toNat ≤ 2 ^ 46
      rcases hy with hy | hy | hy
      · rw [h.parameters y hy] at hmem
        cases hmem
      · have hmarker : y.kind.isMarker = false := by
          rcases hm : y.kind.isMarker with - | -
          · rfl
          · rcases OpKind.of_isMarker hm with hk | hk <;> rw [hk] at hmem <;> cases hmem
        rcases (hl.raised.mem_flatten h.sound h.below hy hmarker).2.2 hmem with hcount | ⟨hinc, hlast⟩
        · rw [hcount]
          decide
        · have hinc' := Amount.le_iff.1 hinc
          have hlast' := Amount.le_iff.1 hlast
          simp only [Amount.trips] at hsmall
          omega
      · rw [h.results y hy] at hmem
        cases hmem
  refine ⟨(widest 1 c'.flatten).toInt.toNat, ?_, fun index count last hspot => ?_⟩
  · rw [storage, decide_eq_false, Bool.false_or, if_neg]
    · rw [decide_eq_true_eq]
      omega
    · intro hneg
      have := Amount.lt_iff.1 hneg
      rw [Int64.toInt_zero] at this
      omega
  · obtain ⟨y, hy, hmem, hcount⟩ := hl.raised.exists_count h.sound hspot
    obtain ⟨x, hx, hbare⟩ := hl.mem hy
    have hle := hall x hx
    rw [Expr.eq_of_bare hbare] at hle
    replace hle := Amount.le_iff.1 (hle hmem)
    rw [hcount] at hle
    omega

end Kernel.LowersTower

namespace Kernel.HasTower

variable {front body back : Piece} {operands : List Tensor} {steps : List Amount → List Amount}

/-- A kernel with one tower can be lowered. Where the piece hits every cell of the outputs, a
    machine that runs the lowered kernel leaves in them what the piece carries. The lanes of a
    register must fit in memory; they are no more than a step of the innermost loop, and no more
    than the innermost dimension. -/
theorem run (h : k.HasTower front body back operands steps) (A : Arithmetic α)
    {inputs outputs : List (Array α)}
    (hasks : ∀ lanes, Asks (interfaceLayout args inputs outputs lanes).room inputs.length outputs.length 0 0
      (front.body ++ back.body) args) (hnodup : (args.map Prod.fst).Nodup)
    (hparams : ∀ y ∈ front.body, ∀ u ∈ y.outputs, u.id < k.nextTensor ∧ ∀ x ∈ body.body, ∀ t ∈ x.outputs, t.id ≠ u.id)
    (hfew : operands.length ≤ 2 ^ 45) (hoperands : ∀ t ∈ operands, (args.lookup t.id).isSome)
    (hsmall : body.inc.trips ≤ 2 ^ 46 ∨ (body.sizes.getLast h.sound.levels).trips ≤ 2 ^ 46) {K : Canvas α}
    (hsource : K.source = .ofMemory A (Machine.memory inputs outputs))
    (hcarries : ∀ lanes index c tail, Spot body.inc body.sizes index c tail →
      Carries A (interfaceLayout args inputs outputs lanes) K (along (ratesOver operands steps body.sizes) index) c
        body.body)
    (hcovers : ∀ lanes, ∀ j < outputs.length,
      ∀ i < (interfaceLayout args inputs outputs lanes).room (1 + inputs.length + j),
        ∃ index c tail, Spot body.inc body.sizes index c tail ∧ hits (interfaceLayout args inputs outputs lanes)
          (along (ratesOver operands steps body.sizes) index) c body.body (1 + inputs.length + j) i) :
    ∃ lanes m, (Pipeline.run k [.markers, .tails, .coloring, .placement]).failure = none ∧
      Machine.run A (Pipeline.run k [.markers, .tails, .coloring, .placement]).kernel none inputs outputs = .ok m ∧
      m.outputs A inputs.length outputs.length = (range outputs.length).map fun j =>
        Array.ofFn fun i : Fin ((interfaceLayout args inputs outputs lanes).room (1 + inputs.length + j)) =>
          K.want (1 + inputs.length + j) i := by
  obtain ⟨changed, m, changed', k1, ms, tail, out, n, c, c', hmarkers, htails, hl⟩ := h.lower
  obtain ⟨lanes, hlanes, hwide⟩ := hl.lanes h hsmall
  have hcolor := Buffers.color_of_none (hl.noBuffers h)
  have hplace := Buffers.place_of_none (hl.noBuffers h)
  have hlists : ({ k1 with scratchSize := 0 } : Kernel).Lists c'.flatten :=
    hl.lists.congr rfl rfl rfl (Nat.le_refl _) (Nat.le_refl _) fun _ _ => rfl
  -- only parameters and results have blocks
  have hhome : ∀ {i b}, args.lookup i = some b →
      (∃ y ∈ front.body, ∃ u ∈ y.outputs, u.id = i) ∨ i ∈ back.body.flatMap Expr.inputIds := by
    intro i b hb
    obtain ⟨pre, post, hsplit, -⟩ := lookup_eq_some_iff.1 hb
    obtain ⟨-, x, hx, hcases⟩ := (hasks 0).interface (a := (i, b)) (by rw [hsplit]; simp)
    rcases mem_append.1 hx with hx | hx
    · rcases hcases with ⟨-, hi⟩ | ⟨hkind, -⟩
      · exact .inl ⟨x, hx, mem_map.1 hi⟩
      · rw [h.parameters x hx] at hkind
        cases hkind
    · rcases hcases with ⟨hkind, -⟩ | ⟨-, hi⟩
      · rw [h.results x hx] at hkind
        cases hkind
      · exact .inr (mem_flatMap.2 ⟨x, hx, hi⟩)
  have hknown : ∀ {i b}, args.lookup i = some b → i < k.nextTensor := by
    intro i b hb
    rcases hhome hb with ⟨y, hy, u, hu, rfl⟩ | hi
    · exact (hparams y hy u hu).1
    · obtain ⟨x, hx, hi⟩ := mem_flatMap.1 hi
      obtain ⟨t, ht, rfl⟩ := mem_map.1 hi
      exact h.pieces.plain.lists.known x (h.pieces.grouped.mem_sequence (g := back) (by simp) hx) t (.inl ht)
  have hfailure : (Pipeline.run k [.markers, .tails, .coloring, .placement]).failure = none := by
    rw [(Pipeline.run_cons_ok (p := .markers) hmarkers _).2, (Pipeline.run_cons_ok (p := .tails) htails _).2,
      (Pipeline.run_cons_ok (p := .coloring) hcolor _).2, (Pipeline.run_cons_ok (p := .placement) hplace _).2]
    rfl
  have hkernel : (Pipeline.run k [.markers, .tails, .coloring, .placement]).kernel = { k1 with scratchSize := 0 } := by
    rw [(Pipeline.run_cons_ok (p := .markers) hmarkers _).1, (Pipeline.run_cons_ok (p := .tails) htails _).1,
      (Pipeline.run_cons_ok (p := .coloring) hcolor _).1, (Pipeline.run_cons_ok (p := .placement) hplace _).1]
    rfl
  have hpaints := hl.raised.paints h.sound (A := A) (K := K) (q := 0) (L := interfaceLayout args inputs outputs lanes)
    (fun index count last hspot => by
      rw [Journey.shift_zero_add]
      exact ⟨hcarries lanes index count last hspot, hwide index count last hspot⟩) h.below
    (fun x hx t ht hout => Option.eq_none_iff_forall_ne_some.2 fun b hb => by
      rcases hhome hb with ⟨y, hy, u, hu, hid⟩ | hi
      · exact (hparams y hy u hu).2 x hx t ht hid.symm
      · exact hout (hl.read _ hi))
    fun i hi => Option.eq_none_iff_forall_ne_some.2 fun b hb => absurd (hknown hb) (Nat.not_lt.2 hi)
  have hwhole := hpaints.between_idle (front.body.map fun x => (0, x))
    (back.body.map fun x => (c.journey.net, x)) (by simpa using h.parameters) (by simpa using h.results)
  rw [← Code.stops_between] at hwhole
  obtain ⟨σ, hleads, hbecomes⟩ := hwhole.of_bare (congrArg Journey.stops (Code.journey_congr hl.bare.symm))
  have hturns := (Code.turns_ofOps front.body (Code.turns_append
    (hl.raised.turns (L := interfaceLayout args inputs outputs lanes) hfew hoperands)
    (Code.turns_ofOps (c := .done) back.body trivial))).of_bare hl.bare.symm
  obtain ⟨machine, hsetup, hshows⟩ := Asks.exists_setup (k := { k1 with scratchSize := 0 })
    (hlists.sequence.symm ▸ hl.asks h (hasks lanes)) rfl hnodup (hlists.sequence.symm ▸ hlanes) A
  obtain ⟨m', hrun, hshows'⟩ := Machine.Does.run hturns 0 K.source σ machine (hsource ▸ hshows) hleads
  refine ⟨lanes, m', hfailure, ?_, ?_⟩
  · rw [hkernel, Machine.run, except_bind_ok hsetup, show Machine.runKernel A _ none =
      _ from hlists.execute _ hl.nested,
      hrun]
    rfl
  · rw [hshows'.outputs]
    refine map_congr_left fun j hj => congrArg Array.ofFn (funext fun i => (hbecomes _ i.1).1 ?_)
    simpa only [Journey.shift_zero_add] using hcovers lanes j (mem_range.1 hj) i.1 i.2

end Kernel.HasTower

end KernelLoops
