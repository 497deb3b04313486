import KernelLoops.Proofs.Copying

set_option autoImplicit false

/-! # Splitting tails does what it does to code

On a kernel that lists nested code, the pass that splits tails succeeds and leaves a kernel that
lists the code `Code.lower` gives, up to numbers, tags and names of loops. Every edit of the pass
changes one piece of the list and leaves the rest alone; the proof follows the pass over the
code. -/

namespace KernelLoops

open List

variable {c : Code} {b : Expr} {size : Amount} {ids path : List LoopId} {α : Type}

/-- An expression that gets fills takes part in the nest. -/
theorem Expr.inNest_of_mem_fills {x f : Expr} {fillTails : Bool} {n : TensorId}
    (hf : f ∈ (x.narrowed fillTails size n).1) : x.inNest = true := by
  have hkind : x.kind = .elementwise := by
    rw [narrowed] at hf
    split at hf
    · next hlanes =>
        simp only [Tails.readsAllLanes, Bool.and_eq_true, decide_eq_true_eq] at hlanes
        exact hlanes.2.1
    · split at hf <;> cases hf
  rw [inNest, hkind]
  rfl

theorem OpKind.ne_loopEnd_of_isMarker {kind : OpKind} (h : kind.isMarker = false) :
    kind ≠ .loopEnd := by
  rintro rfl
  cases h

/-- The parameters of a listed closing marker can be looked up. -/
theorem Kernel.Lists.ask_params {k : Kernel} {xs : List Expr} {e : Expr} {l : LoopParams}
    (h : k.Lists xs) (he : e ∈ xs)
    (hl : e.loop = some l) : Edit.ask (fun k => (k.expr e.id).params) k = .ok l k := by
  refine Edit.ask_run_ok ?_
  rw [h.read e he, Expr.params, hl]

theorem Edit.ask_loopInfo {k : Kernel} {id : LoopId} {info : LoopInfo}
    (h : k.loops.get? id = some info) :
    Edit.ask (·.loopInfo id) k = .ok info k := Edit.ask_run_ok (LoopTable.info_eq_ok.2 h)

/-! ## The state of the pass -/

namespace Tails

/-- While the tails of a kernel `m` are split, the kernel lists expressions tagged with registered
    loops, has grown from `m`, and has the same tensors of `m` in buffers. -/
structure Holds (m k : Kernel) (xs : List Expr) : Prop where
  start : m.Lists m.sequence
  lists : k.Lists xs
  grown : m.Grown k
  table : k.loops.Numbered
  tagged : ∀ x ∈ xs, x.Tagged k.loops
  buffers : ∀ t < m.nextTensor, (∃ x ∈ xs, x.kind = .buffer ∧ t ∈ x.inputIds) ↔
    ∃ x ∈ m.sequence, x.kind = .buffer ∧ t ∈ x.inputIds

namespace Holds

variable {m k k' : Kernel} {xs ys pre post : List Expr} {x e : Expr} {l l' : LoopParams}

theorem step (h : Holds m k xs) (hlists : k'.Lists ys) (hgrown : k.Grown k')
    (htable : k'.loops.Numbered)
    (htagged : ∀ y ∈ ys, y.Tagged k'.loops) (hev : Evolves k.nextTensor xs ys) : Holds m k' ys where
  start := h.start
  lists := hlists
  grown := h.grown.trans hgrown
  table := htable
  tagged := htagged
  buffers t ht := (hev.buffers t (Nat.lt_of_lt_of_le ht h.grown.next)).trans (h.buffers t ht)

theorem known (h : Holds m k xs) (hx : x ∈ xs) : ∀ t ∈ x.outputIds, t < k.nextTensor := by
  intro t ht
  obtain ⟨u, hu, rfl⟩ := mem_map.1 ht
  exact h.lists.known x hx u (.inr hu)

theorem nodup (h : Holds m k xs) : xs.Nodup := List.Nodup.of_map _ h.lists.nodup

/-- The loop that a listed marker closes is registered. -/
theorem loopInfo (h : Holds m k xs) (hx : x ∈ xs) (hkind : x.kind = .loopEnd)
    (hl : x.loop = some l) :
    ∃ info, k.loops.get? l.id = some info :=
  Option.isSome_iff_exists.1 ((h.tagged x hx).params hkind l hl)

/-- A change of one listed expression that leaves its number, kind and operands. -/
theorem modify (h : Holds m k (pre ++ x :: post)) {f : Expr → Expr} (hid : (f x).id = x.id)
    (hkind : (f x).kind = x.kind) (hin : (f x).inputs = x.inputs) (hout : (f x).outputs = x.outputs)
    (htagged : (f x).Tagged k.loops) :
    Holds m { k with exprs := k.exprs.modify x.id f } (pre ++ f x :: post) ∧
      Evolves k.nextTensor [x] [f x] := by
  have hread : k.expr x.id = x := h.lists.read x (by simp)
  have hev : Evolves k.nextTensor [x] [f x] := .of_operands _ hkind hin hout
  refine ⟨h.step (h.lists.modify hid hin hout) ?_ h.table (fun y hy => ?_) ?_, hev⟩
  · refine ⟨rfl, by simp, Nat.le_refl _, fun i hi => ?_, ⟨[], by simp⟩, fun _ hid => hid⟩
    exact Kernel.field_modify Expr.kind (by rw [hread, hkind]) i
  · simp only [mem_append, mem_cons] at hy
    rcases hy with hy | rfl | hy
    · exact h.tagged y (by simp [hy])
    · exact htagged
    · exact h.tagged y (by simp [hy])
  · simpa using hev.within pre post

/-- Other parameters for a closing marker. -/
theorem setParams (h : Holds m k (pre ++ e :: post)) (hl : e.loop = some l) (l' : LoopParams)
    (hid : l'.id = l.id) :
    ∃ k', Edit.modifyExpr e.id (fun x => { x with loop := some l' }) k = .ok () k' ∧
      Holds m k' (pre ++ e.withParams l' :: post) ∧ k'.nextTensor = k.nextTensor ∧ k'.loops = k.loops := by
  have htagged : (e.withParams l').Tagged k.loops := by
    have he := h.tagged e (by simp)
    refine ⟨he.tags, fun hkind l1 hl1 => ?_⟩
    cases hl1
    exact hid ▸ he.params hkind l hl
  exact ⟨_, rfl, (h.modify (f := fun x => { x with loop := some l' }) rfl rfl rfl rfl htagged).1, rfl, rfl⟩

/-- A step on the parameters of a closing marker. -/
theorem onParams (h : Holds m k (pre ++ e :: post)) (hl : e.loop = some l) {a : α}
    {step : EStateM Failure LoopParams α} (hstep : step l = .ok a l') (hid : l'.id = l.id) :
    ∃ k', Tails.onParams e.id step k = .ok a k' ∧ Holds m k' (pre ++ e.withParams l' :: post) ∧
      k'.nextTensor = k.nextTensor ∧ k'.loops = k.loops := by
  obtain ⟨k', hrun, hk'⟩ := h.setParams hl l' hid
  refine ⟨k', ?_, hk'⟩
  unfold Tails.onParams
  rw [bind_run_ok (h.lists.ask_params (by simp) hl), hstep]
  exact (bind_run_ok hrun).trans rfl

/-- A change of a loop of the table. -/
theorem modifyLoop (h : Holds m k xs) (id : LoopId) (f : LoopInfo → LoopInfo) :
    ∃ k', Edit.modifyLoop id f k = .ok ⟨⟩ k' ∧ Holds m k' xs ∧ k'.nextTensor = k.nextTensor ∧
      k'.loops = k.loops.modify id f := by
  have hget : ∀ i, (k.loops.get? i).isSome → ((k.loops.modify id f).get? i).isSome := by
    intro i hi
    rwa [LoopTable.get?_modify, Option.isSome_map]
  refine ⟨_, rfl, h.step (h.lists.congr rfl rfl rfl (Nat.le_refl _) (Nat.le_refl _) fun _ _ => rfl)
    ?_ ?_ ?_ ?_, rfl, rfl⟩
  · exact ⟨rfl, Nat.le_refl _, Nat.le_refl _, fun _ _ => rfl, ⟨[], by simp⟩, hget⟩
  · exact h.table.modify id f
  · exact fun y hy => (h.tagged y hy).mono hget
  · exact .refl _ _

/-- Dropping the trip counter of a loop, if the configuration says so. -/
theorem optimize (h : Holds m k (pre ++ e :: post)) (hl : e.loop = some l)
    (hsize : l.finalOffsets.length ≤ l.ptrIncrements.length) (force : Bool) :
    ∃ k', Tails.optimize e.id force k = .ok () k' ∧
      Holds m k' (pre ++ e.withParams (l.optimized m.config.evaluateOnce force) :: post) ∧
      k'.nextTensor = k.nextTensor ∧ k'.loops = k.loops := by
  unfold Tails.optimize
  rw [get_bind_run, h.grown.config]
  cases honce : m.config.evaluateOnce with
  | false =>
    have hsame : e.withParams (l.optimized false force) = e := by
      rw [show l.optimized false force = l from rfl, Expr.withParams, ← hl]
    rw [hsame]
    exact ⟨k, rfl, h, rfl, rfl⟩
  | true =>
    have hstep := l.evaluateOnce_run hsize force
    obtain ⟨offsets, once, heq⟩ := l.optimized_eq true force
    obtain ⟨k', hrun, hk', hnext⟩ := h.onParams hl hstep (by rw [heq])
    refine ⟨k', ?_, hk', hnext⟩
    rw [if_pos rfl, bind_run_ok hrun]
    rfl

/-! ### Narrowing -/

/-- A fill goes before the expression it pads. -/
theorem insertFill (h : Holds m k (pre ++ x :: post)) (hbuffer : x.kind ≠ .buffer) {port : Nat}
    {t : Tensor}
    (ht : x.inputs[port]? = some t) (size : Amount) (value : UInt32) :
    ∃ f k', Tails.insertFill x.id port size value k = .ok () k' ∧
      Holds m k' (pre ++ f :: x.filled port { t.toTensorType with id := k.nextTensor } :: post) ∧
      Evolves k.nextTensor [x] [f, x.filled port { t.toTensorType with id := k.nextTensor }] ∧
      f.bare = (x.fillOf port t { t.toTensorType with id := k.nextTensor } size value).bare ∧
      f.loopIds = x.loopIds ∧ k'.nextTensor = k.nextTensor + 1 ∧ k'.loops = k.loops := by
  let out : Tensor := { t.toTensorType with id := k.nextTensor }
  let f : Expr := { x.fillOf port t out size value with id := k.exprs.size }
  let k0 : Kernel := { k with nextTensor := k.nextTensor + 1 }
  let k1 := k0.added f (some x.id)
  let k2 := Kernel.Lists.rewired k1 x port t out
  let k3 : Kernel := { k2 with exprs := k2.exprs.modify x.id fun x => { x with fills := x.fills.filter (·.1 != port) } }
  have hx : x ∈ pre ++ x :: post := by simp
  have hread : k.expr x.id = x := h.lists.read x hx
  have htmem : t ∈ x.inputs := mem_of_getElem? ht
  have hlists0 : k0.Lists (pre ++ x :: post) :=
    h.lists.congr rfl rfl rfl (Nat.le_refl _) (Nat.le_succ _) fun _ _ => rfl
  obtain ⟨hinsert, hlists1⟩ := hlists0.added (y := f) rfl (by
    rintro u (hu | hu)
    · rw [mem_singleton.1 hu]
      exact Nat.lt_succ_of_lt (h.lists.known x hx t (.inl htmem))
    · rw [mem_singleton.1 hu]
      exact Nat.lt_succ_self _)
  have hlists1' : k1.Lists ((pre ++ [f]) ++ x :: post) := by
    rw [append_assoc]
    exact hlists1
  obtain ⟨hrewire, hlists2⟩ := hlists1'.replaceInput ht (show out.id < k1.nextTensor from Nat.lt_succ_self _)
  have hlists3 : k3.Lists ((pre ++ [f]) ++ x.filled port out :: post) :=
    hlists2.modify (f := fun x => { x with fills := x.fills.filter (·.1 != port) }) rfl rfl rfl
  have hgrown : k.Grown k3 := by
    have h1 : k.Grown k1 := .added (Nat.le_succ _) (some x.id) rfl fun u hu => by
      rw [mem_singleton.1 hu]
      exact .inl (Nat.le_refl _)
    have h2 : k1.Grown k2 := .of_exprs (by simp) (Kernel.field_modify Expr.kind rfl)
    have h3 : k2.Grown k3 := .of_exprs (by simp) (Kernel.field_modify Expr.kind rfl)
    exact (h1.trans h2).trans h3
  have hev : Evolves k.nextTensor [x] [f, x.filled port out] := by
    constructor
    · intro y hy u hu
      rcases mem_pair.1 hy with rfl | rfl
      · rw [mem_singleton.1 hu]
        exact .inr ⟨x, by simp, mem_map_of_mem htmem⟩
      · obtain ⟨v, hv, rfl⟩ := mem_map.1 hu
        rcases mem_or_eq_of_mem_set hv with hv | rfl
        · exact .inr ⟨x, by simp, mem_map_of_mem hv⟩
        · exact .inl (Nat.le_refl _)
    · intro y hy u hu
      rcases mem_pair.1 hy with rfl | rfl
      · rw [mem_singleton.1 hu]
        exact .inl (Nat.le_refl _)
      · exact .inr ⟨x, by simp, hu⟩
    · have hfill : f.kind ≠ .buffer := fun hk => by cases hk
      have hfilled : (x.filled port out).kind ≠ .buffer := hbuffer
      simp [hbuffer, hfill, hfilled]
  have hlists : k3.Lists (pre ++ f :: x.filled port out :: post) := by simpa using hlists3
  have hevAll : Evolves k.nextTensor (pre ++ x :: post) (pre ++ f :: x.filled port out :: post) := by
    simpa using hev.within pre post
  have htagged : ∀ y ∈ pre ++ f :: x.filled port out :: post, y.Tagged k3.loops := by
    intro y hy
    have hxtag := h.tagged x hx
    simp only [mem_append, mem_cons] at hy
    rcases hy with hy | rfl | rfl | hy
    · exact h.tagged y (by simp [hy])
    · exact ⟨hxtag.tags, fun hkind => by cases hkind⟩
    · exact ⟨hxtag.tags, hxtag.params⟩
    · exact h.tagged y (by simp [hy])
  refine ⟨f, k3, ?_, h.step hlists hgrown h.table htagged hevAll, hev, rfl, rfl, rfl, rfl⟩
  have hask : Edit.ask (fun _ => x.input port) k = .ok t k := Edit.ask_run_ok (fetch_eq_ok_iff.2 ht)
  unfold Tails.insertFill
  rw [get_bind_run, hread, bind_run_ok hask]
  exact (bind_run_ok hinsert).trans ((bind_run_ok hrewire).trans rfl)

/-- Fills go before the expression they pad, one for each listed port with a neutral value. -/
theorem fillPorts (h : Holds m k (pre ++ x :: post)) (hbuffer : x.kind ≠ .buffer) (size : Amount)
    (values : List (Nat × UInt32)) {ports : List Nat} (hports : ∀ p ∈ ports, p < x.inputs.length) :
    ∃ fs k', ports.forM (fillPort size x.id values) k = .ok ⟨⟩ k' ∧
      Holds m k' (pre ++ fs ++ (x.fillPorts size values ports k.nextTensor).2.1 :: post) ∧
      Evolves k.nextTensor [x] (fs ++ [(x.fillPorts size values ports k.nextTensor).2.1]) ∧
      fs.map Expr.bare = (x.fillPorts size values ports k.nextTensor).1.map Expr.bare ∧
      (∀ f ∈ fs, f.loopIds = x.loopIds) ∧ k'.nextTensor = (x.fillPorts size values ports k.nextTensor).2.2 ∧
      k'.loops = k.loops := by
  induction ports generalizing x k pre with
  | nil => exact ⟨[], k, rfl, by simpa [Expr.fillPorts] using h, .refl _ _, rfl, by simp, rfl, rfl⟩
  | cons port ports ih =>
    have hlt := hports port mem_cons_self
    have hget : x.inputs[port]? = some x.inputs[port] := getElem?_eq_getElem hlt
    cases hvalue : values.lookup port with
    | none =>
      obtain ⟨fs, k', hrun, hk', hev, hbare, htags, hnext, hloops⟩ :=
        ih h hbuffer fun p hp => hports p (mem_cons_of_mem port hp)
      have hsame : x.fillPorts size values (port :: ports) k.nextTensor =
          x.fillPorts size values ports k.nextTensor := by
        rw [Expr.fillPorts, hvalue]
      have hskip : fillPort size x.id values port k = .ok () k := by
        rw [fillPort, hvalue]
        rfl
      rw [hsame]
      exact ⟨fs, k', (bind_run_ok hskip).trans hrun, hk', hev, hbare, htags, hnext, hloops⟩
    | some value =>
      obtain ⟨f, k1, hrun1, hk1, hev1, hbare1, htags1, hnext1, hloops1⟩ := h.insertFill hbuffer hget size value
      let out : Tensor := { x.inputs[port].toTensorType with id := k.nextTensor }
      have hk1' : Holds m k1 ((pre ++ [f]) ++ x.filled port out :: post) := by simpa using hk1
      obtain ⟨fs, k', hrun, hk', hev, hbare, htags, hnext, hloops⟩ := ih hk1' hbuffer fun p hp => by
        simpa [Expr.filled] using hports p (mem_cons_of_mem port hp)
      rw [hnext1] at hk' hev hbare hnext
      have hsame : x.fillPorts size values (port :: ports) k.nextTensor =
          (x.fillOf port x.inputs[port] out size value ::
            ((x.filled port out).fillPorts size values ports (k.nextTensor + 1)).1,
            ((x.filled port out).fillPorts size values ports (k.nextTensor + 1)).2) := by
        rw [Expr.fillPorts, hvalue, hget]
      rw [hsame]
      have hfill : fillPort size x.id values port k = .ok () k1 := by
        rw [fillPort, hvalue]
        exact hrun1
      refine ⟨f :: fs, k', (bind_run_ok hfill).trans hrun, by simpa using hk', ?_, ?_,
        forall_mem_cons.2 ⟨htags1, htags⟩, hnext, hloops.trans hloops1⟩
      · have hrest := (Evolves.refl (k.nextTensor + 1) [f]).append hev
        exact hev1.trans hrest (Nat.le_succ _)
      · rw [map_cons, map_cons, hbare1, hbare]

/-- Making one expression process `size` elements. -/
theorem narrow (h : Holds m k (pre ++ x :: post)) (size : Amount) :
    ∃ fs k', Tails.narrow size x.id k = .ok () k' ∧
      Holds m k' (pre ++ fs ++ (x.narrowed m.config.fillTails size k.nextTensor).2.1 :: post) ∧
      Evolves k.nextTensor [x] (fs ++ [(x.narrowed m.config.fillTails size k.nextTensor).2.1]) ∧
      fs.map Expr.bare = (x.narrowed m.config.fillTails size k.nextTensor).1.map Expr.bare ∧
      (∀ f ∈ fs, f.loopIds = x.loopIds) ∧ k'.nextTensor = (x.narrowed m.config.fillTails size k.nextTensor).2.2 ∧
      k'.loops = k.loops := by
  have hread : k.expr x.id = x := h.lists.read x (by simp)
  unfold Tails.narrow Expr.narrowed
  rw [get_bind_run, h.grown.config, hread]
  by_cases hfill : m.config.fillTails && readsAllLanes x
  · simp only [if_pos hfill]
    have hbuffer : x.kind ≠ .buffer := by
      intro hk
      simp [readsAllLanes, hk] at hfill
    exact h.fillPorts hbuffer size x.fills fun p hp => mem_range.1 hp
  · simp only [if_neg hfill]
    by_cases hcount : x.kind.isMemoryAccess && x.count > 1
    · simp only [if_pos hcount]
      have htagged := h.tagged x (by simp)
      obtain ⟨hk', hev⟩ := h.modify (f := fun x => { x with count := size }) rfl rfl rfl rfl
        ⟨htagged.tags, htagged.params⟩
      exact ⟨[], _, rfl, by simpa using hk', hev, rfl, by simp, rfl, rfl⟩
    · simp only [if_neg hcount]
      exact ⟨[], k, rfl, by simpa using h, .refl _ _, rfl, by simp, rfl, rfl⟩

end Holds

/-! ## Pieces of the list -/

/-- A piece `c` of the list of a kernel whose tails are being split. -/
structure Stands (m k : Kernel) (pre post : List Expr) (c : Code) : Prop where
  holds : Holds m k (pre ++ c.flatten ++ post)
  nested : c.Nested (pre ++ c.flatten ++ post)

/-- While `k` became `k'`, the code `c` has become `c'`, which is `target` up to numbers, tags and
    names of loops; the second part of `target` is the next name for a tensor. -/
structure Recoded (k k' : Kernel) (ids path : List LoopId) (c c' : Code)
    (target : Code × TensorId) : Prop where
  evolves : Evolves k.nextTensor c.flatten c'.flatten
  bare : c'.bare = target.1.bare
  next : k'.nextTensor = target.2
  labels : ∃ new, Code.Relabels k.loops k'.loops ids path c c' new

/-- A piece `c` of the list of `k` has become the piece `c'` of the list of `k'`. -/
structure Became (m k k' : Kernel) (ids path : List LoopId) (pre post : List Expr) (c c' : Code)
    (target : Code × TensorId) : Prop extends Stands m k' pre post c', Recoded k k' ids path c c' target

variable {m k k' k'' : Kernel} {pre post : List Expr} {e x : Expr} {l l' : LoopParams} {c' d : Code}
  {target target' : Code × TensorId} {new : List LoopId}

namespace Stands

theorem of_append (h : Stands m k pre post (c.append d)) :
    Stands m k pre (d.flatten ++ post) c ∧ d.Nested (pre ++ c.flatten ++ (d.flatten ++ post)) := by
  have hlist : pre ++ (c.append d).flatten ++ post = pre ++ c.flatten ++ (d.flatten ++ post) := by
    simp [Code.flatten_append]
  obtain ⟨hholds, hnested⟩ := h
  rw [hlist] at hholds hnested
  obtain ⟨hc, hd⟩ := Code.of_nested_append hnested
  exact ⟨⟨hholds, hc⟩, hd⟩

/-- The list around the closing marker of a loop. -/
theorem list_end (pre post : List Expr) (b e : Expr) (c : Code) :
    pre ++ (Code.loop b e c .done).flatten ++ post = (pre ++ b :: c.flatten) ++ e :: post := by simp [Code.flatten]

/-- The list around the body of a loop. -/
theorem list_body (pre post : List Expr) (b e : Expr) (c : Code) :
    pre ++ (Code.loop b e c .done).flatten ++ post = (pre ++ [b]) ++ c.flatten ++ (e :: post) := by simp [Code.flatten]

theorem inside (h : Stands m k pre post (.loop b e c .done)) :
    Stands m k (pre ++ [b]) (e :: post) c :=
  ⟨list_body pre post b e c ▸ h.holds, list_body pre post b e c ▸ h.nested.2.1⟩

end Stands

/-- Nothing else has happened to the code. -/
theorem Recoded.congr (h : Recoded k k' ids path c c' target)
    (hnext : k''.nextTensor = k'.nextTensor)
    (hloops : k''.loops = k'.loops) : Recoded k k'' ids path c c' target :=
  ⟨h.evolves, h.bare, hnext.trans h.next, hloops ▸ h.labels⟩

/-- The loop has other parameters, and its body has changed. -/
theorem Recoded.inLoop (hown : Code.Relabels k.loops k'.loops ids path (.loop b e c .done)
      (.loop b (e.withParams l) c .done) new) (hnext : k'.nextTensor = k.nextTensor)
    (h : Recoded k' k'' (ids ++ new) (path ++ [l.id]) c c' target) :
    Recoded k k'' ids path (.loop b e c .done) (.loop b (e.withParams l) c' .done)
      (.loop b (e.withParams l) target.1 .done, target.2) := by
  obtain ⟨hev, hbare, hnext', new', hlabels⟩ := h
  rw [hnext] at hev
  refine ⟨(hev.inLoop b e).trans (.withParams _ _ _ _ _) (Nat.le_refl _), ?_, hnext', _,
    hown.trans (.inLoop hown.registered rfl hlabels)⟩
  rw [Code.bare_loop, Code.bare_loop, hbare]

namespace Became

theorem refl (h : Stands m k pre post c) (hreg : c.Registered k.loops ids path) :
    Became m k k ids path pre post c c (c, k.nextTensor) :=
  ⟨h, .refl _ _, rfl, rfl, [], .refl hreg⟩

/-- Code beside a piece that changes stays nested. -/
theorem beside (hbecame : Became m k k' ids path pre post c c' target)
    (h : Holds m k (pre ++ c.flatten ++ post))
    (hd : d.Nested (pre ++ c.flatten ++ post)) (hsub : ∀ y ∈ d.flatten, y ∈ pre ++ post) :
    d.Nested (pre ++ c'.flatten ++ post) := by
  refine hd.evolves hbecame.evolves (fun y hy hyc => ?_) fun y hy => h.known ?_
  · rcases mem_append.1 (hsub y hy) with hpre | hpost
    · exact disjoint_of_nodup_append (nodup_append.1 h.nodup).1 hpre hyc
    · exact disjoint_of_nodup_append h.nodup (mem_append_right pre hyc) hpost
  · have hy' := hsub y hy
    simp only [mem_append] at hy' ⊢
    tauto

/-- The markers around a body that has changed. -/
theorem around (hbecame : Became m k k' ids path (pre ++ [b]) (e :: post) c c' target)
    (h : Stands m k pre post (.loop b e c .done)) : Stands m k' pre post (.loop b e c' .done) := by
  have hlist := Stands.list_body pre post b e c'
  have hmarkers : (Code.loop b e .done .done).Nested ((pre ++ [b]) ++ c.flatten ++ (e :: post)) :=
    ⟨Stands.list_body pre post b e c ▸ h.nested.1, trivial, trivial⟩
  have htied := (hbecame.beside h.inside.holds hmarkers (by simp [Code.flatten])).1
  exact ⟨hlist ▸ hbecame.holds, hlist ▸ ⟨htied, hbecame.nested, trivial⟩⟩

/-- The body of a loop has changed. -/
theorem loopBody (hbecame : Became m k k' ids (path ++ [l.id]) (pre ++ [b]) (e :: post) c c' target)
    (h : Stands m k pre post (.loop b e c .done)) (hl : e.loop = some l)
    (hreg : (Code.loop b e c .done).Registered k.loops ids path) :
    Became m k k' ids path pre post (.loop b e c .done) (.loop b e c' .done) (.loop b e target.1 .done, target.2) := by
  obtain ⟨new, hnew⟩ := hbecame.labels
  refine ⟨hbecame.around h, hbecame.evolves.inLoop b e, ?_, hbecame.next, new, .inLoop hreg hl hnew⟩
  rw [Code.bare_loop, Code.bare_loop, hbecame.bare]

/-- What stands behind a piece that has changed, and what becomes of both when it changes too. -/
theorem follow (hc : Became m k k' ids path pre (d.flatten ++ post) c c' target)
    (hreg : (c.append d).Registered k.loops ids path) (h : Stands m k pre post (c.append d))
    (hle : k.nextTensor ≤ k'.nextTensor) :
    ∃ new, Stands m k' (pre ++ c'.flatten) post d ∧ d.Registered k'.loops (ids ++ new) path ∧
      (∀ id ∈ d.names, k'.loops.get? id = k.loops.get? id) ∧
      ∀ {d' k'' target'}, Became m k' k'' (ids ++ new) path (pre ++ c'.flatten) post d d' target' →
        Became m k k'' ids path pre post (c.append d) (c'.append d') (target.1.append target'.1, target'.2) := by
  obtain ⟨hfirst, hbehind⟩ := h.of_append
  obtain ⟨-, hd, happart⟩ := hreg.of_append
  obtain ⟨new, hnew⟩ := hc.labels
  have hnot : ∀ id ∈ d.names, id ∉ c.names := fun id hid hmem => happart id hmem hid
  have hmid : pre ++ c'.flatten ++ (d.flatten ++ post) = (pre ++ c'.flatten) ++ d.flatten ++ post := by simp
  have hd' := hc.beside hfirst.holds hbehind fun y hy => by simp [hy]
  refine ⟨new, ⟨hmid ▸ hc.holds, hmid ▸ hd'⟩, hnew.beside hd hnot,
    fun id hid => hnew.frame id (hnot id hid) (hd.agrees.isSome hid), fun {d' k'' target'} hbecame => ?_⟩
  have hlist : pre ++ (c'.append d').flatten ++ post = (pre ++ c'.flatten) ++ d'.flatten ++ post := by
    simp [Code.flatten_append]
  have hc' : c'.Nested ((pre ++ c'.flatten) ++ d'.flatten ++ post) :=
    hbecame.beside (hmid ▸ hc.holds) (hmid ▸ hc.nested) fun y hy => by simp [hy]
  obtain ⟨new', hnew'⟩ := hbecame.labels
  refine ⟨⟨hlist ▸ hbecame.holds, hlist ▸ Code.nested_append hc' hbecame.nested⟩, ?_, ?_, hbecame.next, _,
    .append hreg hnew hnew'⟩
  · rw [Code.flatten_append, Code.flatten_append]
    have hkeep := hc.evolves.append (Evolves.refl k.nextTensor d.flatten)
    exact hkeep.trans ((Evolves.refl k'.nextTensor c'.flatten).append hbecame.evolves) hle
  · rw [Code.bare_append, Code.bare_append, hc.bare, hbecame.bare]

/-- A piece that has changed twice. -/
theorem trans {c'' : Code} (h : Became m k k' ids path pre post c c' target)
    (hnew : Code.Relabels k.loops k'.loops ids path c c' new)
    (h' : Became m k' k'' (ids ++ new) path pre post c' c'' target') (hle : k.nextTensor ≤ k'.nextTensor) :
    Became m k k'' ids path pre post c c'' target' := by
  obtain ⟨new', hnew'⟩ := h'.labels
  exact ⟨h'.toStands, h.evolves.trans h'.evolves hle, h'.bare, h'.next, _, hnew.trans hnew'⟩

/-- The same piece, by another description. -/
theorem retarget (h : Became m k k' ids path pre post c c' target) (target' : Code × TensorId)
    (hbare : target.1.bare = target'.1.bare) (hnext : target.2 = target'.2) :
    Became m k k' ids path pre post c c' target' :=
  ⟨h.toStands, h.evolves, h.bare.trans hbare, h.next.trans hnext, h.labels⟩

end Became

namespace Stands

/-- Making an expression directly in the code process `size` elements. -/
theorem narrowOp (h : Stands m k pre post (.op x .done)) (size : Amount)
    (hreg : (Code.op x .done).Registered k.loops ids path) :
    ∃ (c' : Code) (k' : Kernel), Tails.narrow size x.id k = .ok ⟨⟩ k' ∧
      Became m k k' ids path pre post (.op x .done) c'
        ((Code.op x .done).narrowed m.config.fillTails size k.nextTensor) := by
  have h0 : Holds m k (pre ++ x :: post) := by simpa [Code.flatten] using h.holds
  obtain ⟨fs, k', hrun, hk', hev, hbare, htags, hnext, hloops⟩ := h0.narrow size
  obtain ⟨hfills, hkind⟩ := x.kind_narrowed m.config.fillTails size k.nextTensor
  let x' := (x.narrowed m.config.fillTails size k.nextTensor).2.1
  -- the fills and what became of the expression
  have hfs : ∀ f ∈ fs, f.kind = .fill ∧ x.inNest = true := by
    intro f hf
    obtain ⟨g, hg, hgf⟩ := mem_map.1 (hbare ▸ mem_map_of_mem hf : f.bare ∈ _)
    exact ⟨(congrArg Expr.kind hgf).symm.trans (hfills g hg), Expr.inNest_of_mem_fills hg⟩
  have hplain : ∀ y ∈ fs ++ [x'], y.kind.isMarker = false ∧ y.loopIds = x.loopIds ∧
      (y.inNest = true → x.inNest = true) := by
    intro y hy
    rcases mem_append.1 hy with hy | hy
    · rw [(hfs y hy).1]
      exact ⟨rfl, htags y hy, fun _ => (hfs y hy).2⟩
    · rw [mem_singleton.1 hy, Expr.inNest, hkind]
      exact ⟨h.nested.1, x.loopIds_narrowed _ _ _, id⟩
  have hflat : (Code.ofOps (fs ++ [x']) .done).flatten = fs ++ [x'] := by simp [Code.flatten]
  refine ⟨.ofOps (fs ++ [x']) .done, k', hrun, ⟨?_, ?_⟩, ?_, ?_, hnext, [], hloops ▸ .ofOp hreg (by simp) ?_⟩
  · rw [hflat]
    simpa using hk'
  · exact Code.nested_ofOps (fun y hy => (hplain y hy).1) trivial
  · rw [hflat]
    exact hev
  · rw [Code.ofOps_append, Code.bare_ofOps, hbare]
    exact (Code.bare_ofOps _ _).symm
  · intro y hy
    obtain ⟨hmarker, hids, hnest⟩ := hplain y hy
    exact ⟨hids, OpKind.ne_loopEnd_of_isMarker hmarker, hnest⟩

/-- Making the expressions directly in the code process `size` elements. -/
theorem narrowCode (h : Stands m k pre post c) (size : Amount)
    (hreg : c.Registered k.loops ids path) :
    ∃ (c' : Code) (k' : Kernel), (c.direct.map Expr.id).forM (Tails.narrow size) k = .ok ⟨⟩ k' ∧
      Became m k k' ids path pre post c c' (c.narrowed m.config.fillTails size k.nextTensor) := by
  induction c generalizing pre k ids with
  | done => exact ⟨.done, k, rfl, .refl h hreg⟩
  | op x rest ih =>
    have hboth : ((Code.op x .done).append rest).Registered k.loops ids path := hreg
    obtain ⟨first, k1, hrun1, hfirst⟩ := (of_append (c := .op x .done) h).1.narrowOp size hboth.of_append.1
    have hle : k.nextTensor ≤ k1.nextTensor := hfirst.next ▸ Code.le_narrowed _ _ _ _
    obtain ⟨new, hstands, hrestReg, -, hjoin⟩ := hfirst.follow hboth h hle
    obtain ⟨rest', k', hrun, hrest⟩ := ih hstands hrestReg
    refine ⟨_, k', (bind_run_ok hrun1).trans hrun, (hjoin hrest).retarget _ ?_ ?_⟩
    · rw [hfirst.next, Code.narrowed_op, Code.narrowed_op, Code.append_ofOps]
      rfl
    · rw [hfirst.next]
      rfl
  | loop b e body rest _ ih =>
    have hboth : ((Code.loop b e body .done).append rest).Registered k.loops ids path := hreg
    obtain ⟨new, hstands, hrestReg, -, hjoin⟩ := (Became.refl (of_append (c := .loop b e body .done) h).1
      hboth.of_append.1).follow hboth h (Nat.le_refl _)
    obtain ⟨rest', k', hrun, hrest⟩ := ih hstands hrestReg
    exact ⟨_, k', hrun, hjoin hrest⟩

/-- Making the body between two markers process `size` elements. -/
theorem narrowBody (h : Stands m k pre post (.loop b e c .done)) (size : Amount)
    (hreg : c.Registered k.loops ids path) :
    ∃ (c' : Code) (k' : Kernel), Tails.narrowBody (some b.id) (some e.id) size k = .ok ⟨⟩ k' ∧
      Stands m k' pre post (.loop b e c' .done) ∧
      Recoded k k' ids path c c' (c.narrowed m.config.fillTails size k.nextTensor) := by
  obtain ⟨c', k', hrun, hbecame⟩ := h.inside.narrowCode size hreg
  have hlist : (pre ++ [b]) ++ c.flatten ++ (e :: post) = pre ++ b :: (c.flatten ++ e :: post) := by simp
  have hwalk : k.body b.id (some e.id) = (c.direct.map Expr.id, none) :=
    (hlist ▸ h.inside.holds.lists).body (hlist ▸ h.inside.nested)
  refine ⟨c', k', ?_, hbecame.around h, hbecame.toRecoded⟩
  unfold Tails.narrowBody
  simp only [get_bind_run, hwalk]
  exact (bind_run_ok hrun).trans rfl

end Stands

namespace Holds

variable {xs ys : List Expr}

/-! ### Copying a loop -/

/-- Inserting copies that have been made behind the part they are copies of. -/
theorem insertCopies (h : Holds m k (pre ++ xs ++ post)) {n' : TensorId}
    {table : List (TensorId × Tensor)}
    {copy : Expr → Expr} (hcopied : Copied pre xs post k.nextTensor n' table copy) {exprs : Array Expr}
    {loops : LoopTable} (hsize : k.exprs.size ≤ exprs.size)
    (hold : ∀ i < k.exprs.size, ({ k with nextTensor := n', exprs, loops } : Kernel).expr i = k.expr i)
    (hread : ∀ x ∈ xs, ({ k with nextTensor := n', exprs, loops } : Kernel).expr (copy x).id = copy x)
    (hmade : ∀ x ∈ xs, k.exprs.size ≤ (copy x).id ∧ (copy x).id < exprs.size)
    (hnodup : ((xs.map copy).map Expr.id).Nodup)
    (hnumbered : loops.Numbered) (hloops : ∀ id, (k.loops.get? id).isSome → (loops.get? id).isSome)
    (htags : ∀ x ∈ xs, (copy x).Tagged loops) :
    ∃ k', ((xs.map copy).map Expr.id).forM (fun e => Edit.insertBefore e (post.head?.map Expr.id))
        { k with nextTensor := n', exprs, loops } = .ok ⟨⟩ k' ∧
      Holds m k' (pre ++ (xs ++ xs.map copy) ++ post) ∧ k'.nextTensor = n' ∧ k'.loops = loops := by
  obtain ⟨order, hrun, hlists'⟩ := h.lists.insertCopies hcopied hsize hold hread hmade hnodup
  rw [← append_assoc, append_assoc pre xs] at hlists'
  refine ⟨_, hrun, h.step hlists' ⟨rfl, hsize, hcopied.fresh.le, fun i hi => ?_, ?_, hloops⟩ hnumbered
    (fun y hy => ?_) ?_, rfl, rfl⟩
  · exact congrArg Expr.kind (hold i hi)
  · refine ⟨_, rfl, fun l hl => ?_⟩
    obtain ⟨y, hy, hl⟩ := mem_flatMap.1 hl
    obtain ⟨x, hx, rfl⟩ := mem_map.1 hy
    obtain ⟨-, -, t, ht, htensor⟩ := Edit.mem_links.1 hl
    rw [hcopied.outputs hx, getElem?_map] at ht
    obtain ⟨u, hu, rfl⟩ := Option.map_eq_some_iff.1 ht
    rw [htensor]
    refine (hcopied.rename_id u).imp_right fun hid => ?_
    exact ⟨⟨u.id, ⟨x.id, .output, l.port.index⟩⟩,
      (h.lists.produced _).2 ⟨x, by simp [hx], Edit.mem_links.2 ⟨rfl, rfl, u, hu, rfl⟩⟩, hid.symm⟩
  · have hy' : y ∈ pre ++ xs ++ post ∨ ∃ x ∈ xs, copy x = y := by
      simp only [mem_append, mem_map] at hy ⊢
      tauto
    rcases hy' with hy' | ⟨x, hx, rfl⟩
    · exact (h.tagged y hy').mono hloops
    · exact htags x hx
  · exact hcopied.evolves.within pre post

/-- The loops that are copied along with a range tag it and are not around it. -/
theorem mem_nestedLoops (h : Holds m k xs) {outer : List LoopId} {ys : List Expr}
    (hys : ∀ y ∈ ys, y ∈ xs) {id : LoopId} :
    id ∈ nestedLoops k outer (ys.map Expr.id) ↔ (∃ y ∈ ys, id ∈ y.loopIds) ∧ id.isSentinel = false ∧ id ∉ outer := by
  simp only [nestedLoops, mem_eraseDups, mem_filter, mem_flatMap, mem_map, Bool.and_eq_true,
    Bool.not_eq_true', ← Bool.not_eq_true, contains_iff_mem, exists_exists_and_eq_and]
  refine and_congr (exists_congr fun y => and_congr_right fun hy => ?_) Iff.rfl
  rw [h.lists.read y (hys y hy)]

/-- A loop is followed by its copy, which has loops of its own. -/
theorem copyLoop (h : Holds m k (pre ++ (Code.loop b e c .done).flatten ++ post)) (hl : e.loop = some l)
    {out : List TensorId} (hout : ReadIn out (pre ++ post)) {names : List (TensorId × Tensor) × TensorId}
    (hnames : names = freshNames ((Code.loop b e c .done).outputs.filter fun t => !out.contains t.id) [] k.nextTensor)
    (hreg : (Code.loop b e c .done).Registered k.loops ids path) :
    ∃ (copy : Expr → Expr) (id : LoopId) (k' : Kernel) (new : List LoopId),
      Tails.copyLoop b.id e.id k = .ok ⟨some (copy b).id, some (copy e).id, id⟩ k' ∧
      Copied pre (Code.loop b e c .done).flatten post k.nextTensor names.2 names.1 copy ∧
      (∀ x, (copy x).bare = (x.rename names.1).bare) ∧
      Holds m k' (pre ++ ((Code.loop b e c .done).flatten ++ (Code.loop b e c .done).flatten.map copy) ++ post) ∧
      k'.nextTensor = names.2 ∧ (copy e).loop = some { l with id } ∧
      Code.Relabels k.loops k'.loops ids path (.loop b e c .done)
        ((Code.loop b e c .done).append ((Code.loop b e c .done).map copy)) new := by
  let xs := (Code.loop b e c .done).flatten
  have hflat : xs = b :: (c.flatten ++ [e]) := rfl
  have he : e ∈ xs := by simp [hflat]
  have hb : b ∈ xs := by simp [hflat]
  have hsub : ∀ x ∈ xs, x ∈ pre ++ xs ++ post := fun x hx =>
    mem_append_left post (mem_append_right pre hx)
  have hlast : k.Lists ((pre ++ b :: c.flatten) ++ e :: post) := by simpa [Code.flatten] using h.lists
  have hfirst : k.Lists (pre ++ b :: ((c.flatten ++ [e]) ++ post)) := by simpa [Code.flatten] using h.lists
  have hnext := hlast.next?
  have hrange := hfirst.range?
  rw [← hflat] at hrange
  obtain ⟨number, exprs, hnum, hcopy⟩ := h.lists.copyRange hrange hout hnames
  have hids : ∀ id ∈ nestedLoops k (k.expr e.id).loopIds (xs.map Expr.id),
      (k.loops.get? id).isSome := by
    intro id hid
    obtain ⟨⟨y, hy, htag⟩, hreal, -⟩ := (h.mem_nestedLoops hsub).1 hid
    exact (h.tagged y (hsub y hy)).tags id htag hreal
  let made : Kernel := { k with nextTensor := names.2, exprs }
  let range : RangeCopy :=
    { pairs := xs.map fun y => (y.id, number y.id), tensors := names.1 }
  have hcopies : range.copies = xs.map fun x => number x.id := map_map
  obtain ⟨mapping, loops, hloops, hkeys, hreloop⟩ := Edit.copyLoops_run (k := made) range h.table hids
  obtain ⟨exprs', htag, hsize', hold, hread⟩ := hnum.retagged loops mapping
  let copy : Expr → Expr := Edit.imageOf names.1 number mapping
  have hrecopied : Edit.Recopied range.movePort k.loops loops mapping ids path e.loopIds (.loop b e c .done) := by
    refine ⟨hloops, hreg, ?_, fun id => ?_⟩
    · obtain ⟨-, -, -, -, -, -, hend⟩ := hreg.inside hl
      exact hend
    · rw [hkeys id, h.mem_nestedLoops hsub, h.lists.read e (hsub e he)]
  have hrelabels := hrecopied.relabels copy (fun _ _ => rfl) (fun _ _ => rfl) fun _ _ => rfl
  have htags : ∀ x ∈ xs, (copy x).Tagged loops := by
    intro x hx
    apply hrelabels.registered.tagged
    rw [Code.flatten_append, Code.flatten_map]
    exact mem_append_right _ (mem_map_of_mem hx)
  have hcopied := h.lists.copied hout hnames fun x _ => Edit.core_imageOf names.1 number mapping x
  obtain ⟨k', hinsert, hk', hnext', hloops'⟩ := h.insertCopies hcopied (hsize' ▸ hnum.size) hold hread
    (fun x hx => hsize' ▸ hnum.fresh x hx) (by rw [map_map]; exact hnum.nodup) hloops.numbered hloops.grown htags
  have hnumber : ∀ x ∈ xs, range.copyOf? x.id = some (copy x).id := by
    intro x hx
    exact Edit.lookup_map_number hx
  -- the loop tags its body, so it has been copied under a name of its own
  obtain ⟨j, hlookup, info, hinfo⟩ : ∃ j, mapping.lookup l.id = some j ∧ ∃ info, loops.get? j = some info := by
    obtain ⟨-, hmem, houtside, -, -, -, hend⟩ := hreg.inside hl
    have hname : l.id ∈ (Code.loop b e c .done).names := by simp [Code.names, hl]
    have hsome : (mapping.lookup l.id).isSome := by
      rw [hkeys l.id, h.mem_nestedLoops hsub, h.lists.read e (hsub e he)]
      refine ⟨hreg.labelled.exists_tagged hname, h.table.isSentinel (hreg.known l.id hmem), fun hown => houtside ?_⟩
      rw [← hend]
      exact mem_filter.2 ⟨hown, contains_iff_mem.2 hmem⟩
    obtain ⟨j, hj⟩ := Option.isSome_iff_exists.1 hsome
    obtain ⟨-, info, -, hinfo⟩ := hloops.mapped (l.id, j) (Edit.Relooped.mem_of_lookup hj)
    exact ⟨j, hj, _, hinfo⟩
  refine ⟨copy, j, k', _, ?_, hcopied, hloops.bare_imageOf h.table names.1 number, hk', hnext', ?_, hloops' ▸ hrelabels⟩
  · have hinsert' : Edit.insertCopy range (post.head?.map Expr.id) { made with exprs := exprs', loops } = .ok ⟨⟩ k' := by
      rw [Edit.insertCopy, hcopies]
      rw [map_map] at hinsert
      exact hinsert
    have hparams := hk'.lists.ask_params (mem_append_left _ (mem_append_right _ (mem_append_left _ he))) hl
    have hfound := Edit.ask_loopInfo (hloops' ▸ hinfo)
    unfold Tails.copyLoop
    rw [get_bind_run, hnext]
    refine (bind_run_ok (Edit.ask_run_ok
      (a := nestedLoops k (k.expr e.id).loopIds (xs.map Expr.id)) ?_)).trans ?_
    · rw [hrange]
    rw [bind_run_ok hcopy, bind_run_ok hreloop, hcopies]
    refine (congrArg _ htag).trans ?_
    rw [bind_run_ok hinsert', bind_run_ok hparams]
    simp only [hlookup, Option.getD_some]
    rw [bind_run_ok hfound, hnumber b hb, hnumber e he]
    rfl
  · simp only [copy, Edit.imageOf, Edit.retagged, Expr.rename, hl, Option.map_some, Edit.renamed, hlookup, Option.getD_some]

end Holds

/-! ### Tails and vector loops -/

namespace Stands

variable (h : Stands m k pre post (.loop b e c .done)) (hl : e.loop = some l)

include h hl

/-- A step on the parameters of a loop. -/
theorem onParams {a : α} {step : EStateM Failure LoopParams α} (hstep : step l = .ok a l')
    (hid : l'.id = l.id) :
    ∃ k', Tails.onParams e.id step k = .ok a k' ∧ Stands m k' pre post (.loop b (e.withParams l') c .done) ∧
      k'.nextTensor = k.nextTensor ∧ k'.loops = k.loops := by
  obtain ⟨k', hrun, hk', hsame⟩ := (list_end pre post b e c ▸ h.holds).onParams hl hstep hid
  exact ⟨k', hrun, ⟨list_end pre post b _ c ▸ hk', h.nested.withParams h.holds.nodup l'⟩, hsame⟩

/-- Dropping the trip counter of a loop, if the configuration says so. -/
theorem optimize (hsize : l.finalOffsets.length ≤ l.ptrIncrements.length) (force : Bool) :
    ∃ k', Tails.optimize e.id force k = .ok () k' ∧
      Stands m k' pre post (.loop b (e.withParams (l.optimized m.config.evaluateOnce force)) c .done) ∧
      k'.nextTensor = k.nextTensor ∧ k'.loops = k.loops := by
  obtain ⟨k', hrun, hk', hsame⟩ := (list_end pre post b e c ▸ h.holds).optimize hl hsize force
  exact ⟨k', hrun, ⟨list_end pre post b _ c ▸ hk', h.nested.withParams h.holds.nodup _⟩, hsame⟩

/-- Making the loop between the markers of a tail run once over `size` elements. The tail takes from
    the closing marker `e0` whether another loop runs it again. -/
theorem finishTail {e0 : Expr} {l0 : LoopParams} (he0 : e0 ∈ pre ++ [e]) (hl0 : e0.loop = some l0)
    {offsets : List Amount}
    (hoffsets : offsets.length ≤ l.ptrIncrements.length) (id : LoopId) (size : Amount) (touches : Bool)
    (hreg : c.Registered k.loops ids path) :
    ∃ (c' : Code) (k' : Kernel),
      let l' : LoopParams := { l with
        workAmount := size
        increment := size
        finalOffsets := offsets
        hasOuterLoop := l0.hasOuterLoop
        once := false }
      Tails.finishTail ⟨some b.id, some e.id, id⟩ e0.id size offsets touches k = .ok () k' ∧
      Stands m k' pre post (.loop b (e.withParams (l'.optimized m.config.evaluateOnce touches)) c' .done) ∧
      Recoded k k' ids path c c' (c.narrowed m.config.fillTails size k.nextTensor) := by
  obtain ⟨c', k1, hrun1, h1, hbody⟩ := h.narrowBody size hreg
  have hask := h1.holds.lists.ask_params (e := e0) (by
    simp only [Code.flatten, mem_append, mem_cons] at he0 ⊢
    tauto) hl0
  let step : EStateM Failure LoopParams Unit := fun t => .ok () { t with
    workAmount := size
    increment := size
    finalOffsets := offsets
    hasOuterLoop := l0.hasOuterLoop
    once := false }
  obtain ⟨k2, hrun2, h2, hnext2, hloops2⟩ := h1.onParams hl (show step l = .ok () _ from rfl) rfl
  obtain ⟨k3, hrun3, h3, hnext3, hloops3⟩ := h2.optimize rfl hoffsets touches
  refine ⟨c', k3, ?_, h3, hbody.congr (hnext3.trans hnext2) (hloops3.trans hloops2)⟩
  unfold Tails.finishTail
  rw [bind_run_ok hrun1]
  exact (bind_run_ok hask).trans ((bind_run_ok hrun2).trans hrun3)

/-- Taking a tail of `size` elements off a loop. -/
theorem shorten (size : Amount) : ∃ k', Tails.shorten e.id l size k = .ok () k' ∧
      Stands m k' pre post (.loop b (e.withParams (l.shortened size)) c .done) ∧ k'.nextTensor = k.nextTensor ∧
      k'.loops = k.loops.modify l.id fun i => { i with workAmount := l.workAmount - size } := by
  let step : EStateM Failure LoopParams Unit := fun l => .ok () (l.shortened size)
  obtain ⟨k1, hrun1, h1, hnext1, hloops1⟩ := h.onParams hl (show step l = .ok () _ from rfl) rfl
  obtain ⟨k2, hrun2, hk2, hnext2, hloops2⟩ :=
    h1.holds.modifyLoop l.id fun i => { i with workAmount := l.workAmount - size }
  obtain ⟨info, hinfo⟩ := h1.holds.loopInfo (x := e.withParams (l.shortened size)) (by simp [Code.flatten])
    h.nested.1.closes rfl
  refine ⟨k2, ?_, ⟨hk2, h1.nested⟩, hnext2.trans hnext1, hloops1 ▸ hloops2⟩
  unfold Tails.shorten
  exact (bind_run_ok hrun1).trans ((bind_run_ok (Edit.ask_loopInfo hinfo)).trans hrun2)

/-- A loop before its tail. -/
theorem buildShortened (hoffsets : l.finalOffsets.length ≤ l.ptrIncrements.length)
    (hsize : size ≠ 0) (touches : Bool) :
    ∃ k', Tails.buildVector e.id l size touches k = .ok () k' ∧
      Stands m k' pre post (.loop b (e.withParams ((l.shortened size).optimized m.config.evaluateOnce true)) c .done) ∧
      k'.nextTensor = k.nextTensor ∧
      k'.loops = k.loops.modify l.id fun i => { i with workAmount := l.workAmount - size } := by
  obtain ⟨k1, hrun1, h1, hnext1, hloops1⟩ := h.shorten hl size
  have hoffsets' : (l.shortened size).finalOffsets.length ≤ (l.shortened size).ptrIncrements.length := by
    rw [LoopParams.shortened, length_map]
    exact hoffsets
  obtain ⟨k', hrun, h', hnext, hloops⟩ := h1.optimize rfl hoffsets' true
  refine ⟨k', ?_, h', hnext.trans hnext1, hloops.trans hloops1⟩
  unfold Tails.buildVector
  rw [if_pos hsize, bind_run_ok hrun1, decide_eq_true hsize]
  exact hrun

end Stands

end Tails

end KernelLoops
