import KernelLoops.Proofs.RoundedLoops

set_option autoImplicit false

/-! # Filled tails

In a tail, an expression that reads all lanes gets the inputs it has a neutral value for through
fills. `Code.Filled` follows code through the pass: every expression is still there, with tensors
under other names, and what has been added are the fills of recorded values, in the bodies of
tails. -/

namespace KernelLoops

open List

/-! ## Fills of one expression -/

namespace Expr

/-- What `y` reads through the port comes from the fill: it takes `t`, keeps `size` lanes of it and
    sets the others to the value, within the registers. -/
structure Guards (f : Expr) (size : Amount) (value : UInt32) (t : Tensor) (regs : List Int)
    (y : Expr) (port : Nat) :
    Prop where
  kind : f.kind = .fill
  count : f.count = size
  value : f.fillValue = value
  input : f.inputs = [t]
  output : ∃ out, f.outputs = [out] ∧ y.inputs[port]? = some out
  inRegs : f.inRegs = regs
  outRegs : f.outRegs = regs

/-- The expression `y` stands for `x`, with tensors under other names. -/
structure StandsFor (names : Tensor → Tensor) (x y : Expr) : Prop where
  kind : y.kind = x.kind
  op : y.op = x.op
  outputs : y.outputs = x.outputs.map names
  inRegs : y.inRegs = x.inRegs
  outRegs : y.outRegs = x.outRegs

/-- The expression `y` stands for `x` and reads what `x` reads. -/
structure Repeats (names : Tensor → Tensor) (x y : Expr) : Prop extends x.StandsFor names y where
  inputs : y.inputs = x.inputs.map names
  fills : y.fills = x.fills

/-- The expression `y` stands for `x` behind the fills `fs`: the ports with a recorded value go
    through one of them each, in the register of the operand. -/
structure Padded (names : Tensor → Tensor) (size : Amount) (x : Expr) (fs : List Expr) (y : Expr) :
    Prop
    extends x.StandsFor names y where
  filled : ∀ port value t, x.fills.lookup port = some value → x.inputs[port]? = some t →
    ∃ f ∈ fs, f.Guards size value (names t) x.inRegs[port]?.toList y port
  passed : ∀ port, x.fills.lookup port = none → y.inputs[port]? = x.inputs[port]?.map names
  only : ∀ f ∈ fs, ∃ port value t, x.fills.lookup port = some value ∧ x.inputs[port]? = some t ∧
    f.Guards size value (names t) x.inRegs[port]?.toList y port

variable {names : Tensor → Tensor} {x y z f g : Expr} {size : Amount} {value : UInt32} {t : Tensor}
  {regs : List Int}
  {port : Nat} {fs gs : List Expr}

/-- Filling ports puts one fill before each port that has a value. -/
theorem guards_fillPorts {ports : List Nat} (hports : ports.Nodup) (size : Amount)
    (values : List (Nat × UInt32))
    (x : Expr) (n : TensorId) :
    (∀ port ∈ ports, ∀ value t, values.lookup port = some value → x.inputs[port]? = some t →
      ∃ f ∈ (x.fillPorts size values ports n).1,
        f.Guards size value t x.inRegs[port]?.toList (x.fillPorts size values ports n).2.1 port) ∧
    (∀ f ∈ (x.fillPorts size values ports n).1, ∃ port ∈ ports, ∃ value t, values.lookup port = some value ∧
      x.inputs[port]? = some t ∧
        f.Guards size value t x.inRegs[port]?.toList (x.fillPorts size values ports n).2.1 port) ∧
    ∀ port, (port ∈ ports → values.lookup port = none) →
      (x.fillPorts size values ports n).2.1.inputs[port]? = x.inputs[port]? := by
  induction ports generalizing x n with
  | nil => exact ⟨by simp, by simp [fillPorts], fun _ _ => rfl⟩
  | cons p ports ih =>
    obtain ⟨hp, hrest⟩ := nodup_cons.1 hports
    rw [fillPorts]
    split
    · next value t hvalue ht =>
        let out : Tensor := { t.toTensorType with id := n }
        obtain ⟨hall, honly, hkeep⟩ := ih hrest (x.filled p out) (n + 1)
        have hother : ∀ q, q ≠ p → (x.filled p out).inputs[q]? = x.inputs[q]? := fun q hq =>
          getElem?_set_ne hq.symm
        have hown : (x.filled p out).inputs[p]? = some out :=
          List.getElem?_set_self (List.getElem?_eq_some_iff.1 ht).1
        have hguards : (x.fillOf p t out size value).Guards size value t x.inRegs[p]?.toList
            ((x.filled p out).fillPorts size values ports (n + 1)).2.1 p :=
          ⟨rfl, rfl, rfl, rfl, ⟨out, rfl, (hkeep p fun h => absurd h hp).trans hown⟩, rfl, rfl⟩
        refine ⟨fun q hq v u hv hu => ?_, fun f hf => ?_, fun q hq => ?_⟩
        · rcases mem_cons.1 hq with rfl | hq
          · cases hvalue.symm.trans hv
            cases ht.symm.trans hu
            exact ⟨_, mem_cons_self, hguards⟩
          · obtain ⟨f, hf, hfills⟩ := hall q hq v u hv ((hother q (fun h => hp (h ▸ hq))).trans hu)
            exact ⟨f, mem_cons_of_mem _ hf, hfills⟩
        · rcases mem_cons.1 hf with rfl | hf
          · exact ⟨p, mem_cons_self, value, t, hvalue, ht, hguards⟩
          · obtain ⟨q, hq, v, u, hv, hu, hfills⟩ := honly f hf
            exact ⟨q, mem_cons_of_mem p hq, v, u, hv, (hother q fun h => hp (h ▸ hq)).symm.trans hu, hfills⟩
        · have hne : q ≠ p := by
            rintro rfl
            rw [hq mem_cons_self] at hvalue
            cases hvalue
          exact (hkeep q fun h => hq (mem_cons_of_mem p h)).trans (hother q hne)
    · next hskip =>
        obtain ⟨hall, honly, hkeep⟩ := ih hrest x n
        refine ⟨fun q hq v u hv hu => ?_, fun f hf => ?_, fun q hq => hkeep q fun h => hq (mem_cons_of_mem p h)⟩
        · rcases mem_cons.1 hq with rfl | hq
          · exact absurd hu (hskip v u hv)
          · exact hall q hq v u hv hu
        · obtain ⟨q, hq, hfills⟩ := honly f hf
          exact ⟨q, mem_cons_of_mem p hq, hfills⟩

/-- An expression that reads all lanes is narrowed to one behind fills. -/
theorem Repeats.padded (h : x.Repeats names y) (size : Amount) (n : TensorId) :
    let r := y.fillPorts size y.fills (range y.inputs.length) n
    x.Padded names size r.1 r.2.1 := by
  intro r
  obtain ⟨hall, honly, hkeep⟩ := guards_fillPorts nodup_range size y.fills y n
  obtain ⟨_, _, heq⟩ := fillPorts_eq size y.fills (range y.inputs.length) y n
  have hinput : ∀ port, y.inputs[port]? = x.inputs[port]?.map names := fun port => by
    rw [h.inputs, getElem?_map]
  refine ⟨⟨?_, ?_, ?_, ?_, ?_⟩, fun port value t hvalue ht => ?_, fun port hnone => ?_, fun f hf => ?_⟩
  · exact (congrArg Expr.kind heq).trans h.kind
  · exact (congrArg Expr.op heq).trans h.op
  · exact (congrArg Expr.outputs heq).trans h.outputs
  · exact (congrArg Expr.inRegs heq).trans h.inRegs
  · exact (congrArg Expr.outRegs heq).trans h.outRegs
  · have ht' : y.inputs[port]? = some (names t) := by rw [hinput, ht, Option.map_some]
    rw [← h.inRegs]
    exact hall port (mem_range.2 (List.getElem?_eq_some_iff.1 ht').1) value (names t) (by rwa [h.fills]) ht'
  · rw [← hinput]
    exact hkeep port fun _ => by rwa [h.fills]
  · obtain ⟨port, -, value, u, hvalue, hu, hguards⟩ := honly f hf
    rw [hinput] at hu
    obtain ⟨t, ht, rfl⟩ := Option.map_eq_some_iff.1 hu
    exact ⟨port, value, t, by rwa [← h.fills], ht, by rwa [← h.inRegs]⟩

/-! ### Other names -/

section Rename

variable (table : List (TensorId × Tensor))

theorem Guards.rename (h : f.Guards size value t regs y port) :
    (f.rename table).Guards size value (RangeCopy.rename table t) regs (y.rename table) port := by
  obtain ⟨out, hout, hread⟩ := h.output
  refine ⟨h.kind, h.count, h.value, ?_, ⟨RangeCopy.rename table out, ?_, ?_⟩, h.inRegs, h.outRegs⟩
  · simp [Expr.rename, h.input]
  · simp [Expr.rename, hout]
  · simp [Expr.rename, hread]

theorem StandsFor.rename (h : x.StandsFor names y) :
    x.StandsFor (RangeCopy.rename table ∘ names) (y.rename table) :=
  ⟨h.kind, h.op, by simp [Expr.rename, h.outputs], h.inRegs, h.outRegs⟩

theorem Repeats.rename (h : x.Repeats names y) :
    x.Repeats (RangeCopy.rename table ∘ names) (y.rename table) :=
  ⟨h.toStandsFor.rename table, by simp [Expr.rename, h.inputs], h.fills⟩

theorem Padded.rename (h : x.Padded names size fs y) :
    x.Padded (RangeCopy.rename table ∘ names) size (fs.map (Expr.rename table)) (y.rename table) where
  toStandsFor := h.toStandsFor.rename table
  filled port value t hvalue ht := by
    obtain ⟨f, hf, hguards⟩ := h.filled port value t hvalue ht
    exact ⟨_, mem_map_of_mem hf, hguards.rename table⟩
  passed port hnone := by
    rw [← Option.map_map, ← h.passed port hnone]
    exact getElem?_map
  only g hg := by
    obtain ⟨f, hf, rfl⟩ := mem_map.1 hg
    obtain ⟨port, value, t, hvalue, ht, hguards⟩ := h.only f hf
    exact ⟨port, value, t, hvalue, ht, hguards.rename table⟩

end Rename

/-! ### Other tags -/

theorem Guards.congr (h : f.Guards size value t regs y port) (hf : f.bare = g.bare)
    (hy : y.bare = z.bare) :
    g.Guards size value t regs z port := by
  rw [eq_of_bare hf, eq_of_bare hy]
  exact ⟨h.kind, h.count, h.value, h.input, h.output, h.inRegs, h.outRegs⟩

theorem StandsFor.congr (h : x.StandsFor names y) (hy : y.bare = z.bare) : x.StandsFor names z := by
  rw [eq_of_bare hy]
  exact ⟨h.kind, h.op, h.outputs, h.inRegs, h.outRegs⟩

theorem Repeats.congr (h : x.Repeats names y) (hy : y.bare = z.bare) : x.Repeats names z :=
  ⟨h.toStandsFor.congr hy, (congrArg Expr.inputs hy).symm.trans h.inputs, (congrArg Expr.fills hy).symm.trans h.fills⟩

theorem Padded.congr (h : x.Padded names size fs y) (hfs : fs.map bare = gs.map bare)
    (hy : y.bare = z.bare) :
    x.Padded names size gs z where
  toStandsFor := h.toStandsFor.congr hy
  filled port value t hvalue ht := by
    obtain ⟨f, hf, hguards⟩ := h.filled port value t hvalue ht
    obtain ⟨g, hg, hgf⟩ := mem_map.1 (hfs ▸ mem_map_of_mem hf)
    exact ⟨g, hg, hguards.congr hgf.symm hy⟩
  passed port hnone := (congrArg (fun z : Expr => z.inputs[port]?) hy).symm.trans (h.passed port hnone)
  only g hg := by
    obtain ⟨f, hf, hfg⟩ := mem_map.1 (hfs ▸ mem_map_of_mem hg : g.bare ∈ fs.map bare)
    obtain ⟨port, value, t, hvalue, ht, hguards⟩ := h.only f hf
    exact ⟨port, value, t, hvalue, ht, hguards.congr hfg hy⟩

end Expr

/-! ## What code makes -/

namespace Code

/-- Every tensor that the code makes has the property. -/
def Makes (P : TensorId → Prop) (c : Code) : Prop := ∀ x ∈ c.flatten, ∀ t ∈ x.outputs, P t.id

section Makes

variable {P : TensorId → Prop} {n : TensorId} {b e : Expr} {body c d : Code}

theorem Makes.loop_iff : (loop b e body c).Makes P ↔
    (∀ t ∈ b.outputs, P t.id) ∧ body.Makes P ∧ (∀ t ∈ e.outputs, P t.id) ∧ c.Makes P := by
  simp only [Makes, flatten, forall_mem_cons, forall_mem_append]

theorem Makes.rename (h : c.Makes P) {table : List (TensorId × Tensor)}
    (htable : ∀ i u, table.lookup i = some u → P u.id) : (c.map (Expr.rename table)).Makes P := by
  intro x hx t ht
  rw [flatten_map] at hx
  obtain ⟨y, hy, rfl⟩ := mem_map.1 hx
  obtain ⟨u, hu, rfl⟩ := mem_map.1 ht
  rw [RangeCopy.rename]
  cases hv : table.lookup u.id with
  | none => exact h y hy u hu
  | some v => exact htable u.id v hv

/-- Narrowing code makes tensors of new names only. -/
theorem Makes.narrowed (h : c.Makes P) (hnew : ∀ i, n ≤ i → P i) (padding : Bool) (size : Amount) :
    (c.narrowed padding size n).1.Makes P := by
  induction c generalizing n with
  | done => exact h
  | op x rest ih =>
    obtain ⟨hx, hrest⟩ := forall_mem_cons.1 h
    have hrest := ih hrest fun i hi => hnew i (Nat.le_trans (x.le_narrowed padding size n) hi)
    obtain ⟨_, _, _, heq⟩ := x.narrowed_eq_with padding size n
    rw [narrowed_op, Makes, flatten_ofOps, flatten, forall_mem_append, forall_mem_cons]
    refine ⟨fun f hf t ht => hnew t.id (x.le_of_mem_narrowed padding size n f hf t ht), ?_, hrest⟩
    rw [heq]
    exact hx
  | loop b e body rest _ ih =>
    obtain ⟨hb, hbody, he, hrest⟩ := Makes.loop_iff.1 h
    exact Makes.loop_iff.2 ⟨hb, hbody, he, ih hrest hnew⟩

theorem Makes.splitLoop (h : (loop b e body done).Makes P) (hnew : ∀ i, n ≤ i → P i) (m : Kernel)
    (out : List TensorId) : (splitLoop m b e body out n).1.Makes P := by
  obtain ⟨hb, hbody, he, hdone⟩ := Makes.loop_iff.1 h
  unfold Code.splitLoop cutLoop
  split
  · exact h
  next l hl =>
  split
  · exact h
  split
  · exact Makes.loop_iff.2 ⟨hb, hbody, he, hdone⟩
  split
  · let e1 := e.withParams ((l.shortened (l.workAmount % l.increment)).optimized m.config.evaluateOnce true)
    let names := freshNames ((loop b e1 body done).outputs.filter fun t => !out.contains t.id) [] n
    have htable : FreshTable names.1 n names.2 := (freshNames_spec _ (.nil n)).1
    have hcopy : ((loop b e body done).map (Expr.rename names.1)).Makes P :=
      h.rename fun i u hu => hnew u.id (htable.fresh i u hu).1
    obtain ⟨hb', hbody', he', -⟩ := Makes.loop_iff.1 hcopy
    exact Makes.loop_iff.2 ⟨hb, hbody, he, Makes.loop_iff.2
      ⟨hb', hbody'.narrowed (fun i hi => hnew i (Nat.le_trans htable.le hi)) _ _, he', hdone⟩⟩
  · exact Makes.loop_iff.2 ⟨hb, hbody.narrowed hnew _ _, he, hdone⟩

/-- Splitting the tails of code makes tensors of new names only. -/
theorem Makes.lower (h : c.Makes P) (hnew : ∀ i, n ≤ i → P i) (m : Kernel) (out : List TensorId) :
    (c.lower m out n).1.Makes P := by
  induction c generalizing out n with
  | done => exact h
  | op x rest ih =>
    obtain ⟨hx, hrest⟩ := forall_mem_cons.1 h
    exact forall_mem_cons.2 ⟨hx, ih hrest hnew _⟩
  | loop b e body rest ihbody ihrest =>
    obtain ⟨hb, hbody, he, hrest⟩ := Makes.loop_iff.1 h
    rw [lower_loop, Makes, flatten_append, forall_mem_append]
    have hinner := le_lower m body (b.inputIds ++ (e.inputIds ++ (rest.inputIds ++ out))) n
    have hloop := Makes.loop_iff.2 ⟨hb, ihbody hbody hnew (b.inputIds ++ (e.inputIds ++ (rest.inputIds ++ out))), he,
      (fun _ hx => nomatch hx : done.Makes P)⟩
    refine ⟨hloop.splitLoop (fun i hi => hnew i (Nat.le_trans hinner hi)) m _, ihrest hrest (fun i hi => hnew i ?_) _⟩
    exact Nat.le_trans hinner (Nat.le_trans (le_splitLoop m b e _ _ _) hi)

end Makes

/-! ## Fills in code -/

/-- The second code comes from the first one by splitting tails. The size is that of the tail whose
    body the code is, if it is one: there, if padding is on, the expressions that read all lanes
    stand behind fills, in the same loops. A loop stays a loop over whole increments, becomes a
    tail, or is split into both. In the tail that is split off, what the loop reads and does not
    make has the name it has before the tail. -/
inductive Filled (padding : Bool) : (Tensor → Tensor) → Option Amount → Code → Code → Prop
  | done {names : Tensor → Tensor} {size : Option Amount} : Filled padding names size done done
  | op {names : Tensor → Tensor} {size : Option Amount} {x y : Expr} {c c' : Code}
      (unpadded : size = none ∨ padding = false ∨ Tails.readsAllLanes x = false) (copy : x.Repeats names y)
      (rest : Filled padding names size c c') : Filled padding names size (op x c) (op y c')
  | padded {names : Tensor → Tensor} {size : Amount} {x y : Expr} {fs : List Expr} {c c' : Code} (on : padding = true)
      (lanes : Tails.readsAllLanes x = true) (copy : x.Padded names size fs y) (tags : ∀ f ∈ fs, f.loopIds = y.loopIds)
      (rest : Filled padding names (some size) c c') : Filled padding names (some size) (op x c) (ofOps fs (op y c'))
  | whole {names : Tensor → Tensor} {size : Option Amount} {b e b' e' : Expr} {l l' : LoopParams}
      {body body' c c' : Code} (params : e.loop = some l) (params' : e'.loop = some l')
      (even : l.isStatic = true → l.workAmount % l.increment = 0) (work : l'.workAmount = l.workAmount)
      (inside : Filled padding names none body body') (rest : Filled padding names size c c') :
      Filled padding names size (loop b e body c) (loop b' e' body' c')
  | tail {names : Tensor → Tensor} {size : Option Amount} {b e b' e' : Expr} {l l' : LoopParams}
      {body body' c c' : Code} (params : e.loop = some l) (params' : e'.loop = some l')
      (ragged : l.workAmount % l.increment ≠ 0) (work : l'.workAmount = l.workAmount)
      (short : l'.workAmount = l.workAmount % l.increment)
      (inside : Filled padding names (some (l.workAmount % l.increment)) body body')
      (rest : Filled padding names size c c') :
      Filled padding names size (loop b e body c) (loop b' e' body' c')
  | split {names names' : Tensor → Tensor} {size : Option Amount} {b e b1 e1 b2 e2 : Expr} {l l1 l2 : LoopParams}
      {body body1 body2 c c' : Code} (params : e.loop = some l) (params1 : e1.loop = some l1)
      (params2 : e2.loop = some l2) (ragged : l.workAmount % l.increment ≠ 0)
      (work : l1.workAmount.toInt + l2.workAmount.toInt = l.workAmount.toInt)
      (short : l2.workAmount = l.workAmount % l.increment)
      (keeps : ∀ x ∈ body.flatten, ∀ t ∈ x.inputs, (∀ u ∈ (loop b e body done).outputs, u.id ≠ t.id) →
        names' t = names t) (inside1 : Filled padding names none body body1)
      (inside2 : Filled padding names' (some (l.workAmount % l.increment)) body body2)
      (rest : Filled padding names size c c') :
      Filled padding names size (loop b e body c) (loop b1 e1 body1 (loop b2 e2 body2 c'))

namespace Filled

variable {padding : Bool} {names : Tensor → Tensor} {size : Option Amount}
  {c c' d body body' : Code} {e : Expr}
  {l : LoopParams}

theorem rename (h : Filled padding names size c d) (table : List (TensorId × Tensor)) :
    Filled padding (RangeCopy.rename table ∘ names) size c (d.map (Expr.rename table)) := by
  induction h with
  | done => exact .done
  | op unpadded copy _ ih => exact .op unpadded (copy.rename table) ih
  | @padded _ _ x y fs _ _ on lanes copy tags _ ih =>
    rw [map_ofOps]
    refine .padded on lanes (copy.rename table) (fun g hg => ?_) ih
    obtain ⟨f, hf, rfl⟩ := mem_map.1 hg
    exact tags f hf
  | whole params params' even work _ _ ihbody ihrest =>
    exact .whole params params' even work ihbody ihrest
  | tail params params' ragged work short _ _ ihbody ihrest =>
    exact .tail params params' ragged work short ihbody ihrest
  | split params params1 params2 ragged work short keeps _ _ _ ih1 ih2 ihrest =>
    exact .split params params1 params2 ragged work short
      (fun x hx t ht hmade => congrArg (RangeCopy.rename table) (keeps x hx t ht hmade)) ih1 ih2 ihrest

/-- The body of a tail. -/
theorem narrowed (h : Filled padding names size c d) (hsize : size = none) (s : Amount)
    (n : TensorId) :
    Filled padding names (some s) c (d.narrowed padding s n).1 := by
  induction h generalizing n with
  | done => exact .done
  | padded => cases hsize
  | @op _ _ x y _ _ _ copy _ ih =>
    have hlanes : Tails.readsAllLanes y = Tails.readsAllLanes x := by
      rw [Tails.readsAllLanes, Tails.readsAllLanes, copy.kind, copy.op]
    rw [narrowed_op]
    cases hpad : (padding && Tails.readsAllLanes y) with
    | true =>
      have hnarrowed : y.narrowed padding s n = y.fillPorts s y.fills (range y.inputs.length) n := if_pos hpad
      obtain ⟨inputs, fills, heq⟩ := Expr.fillPorts_eq s y.fills (range y.inputs.length) y n
      rw [Bool.and_eq_true, hlanes] at hpad
      rw [hnarrowed]
      refine .padded hpad.1 hpad.2 (copy.padded s n) (fun f hf => ?_) (ih hsize _)
      rw [(Expr.of_mem_fillPorts s y.fills _ y n f hf).2, heq]
    | false =>
      have hunpadded : padding = false ∨ Tails.readsAllLanes x = false := by
        rwa [Bool.and_eq_false_iff, hlanes] at hpad
      rw [Expr.narrowed, hpad]
      simp only [Bool.false_eq_true, if_false]
      split
      · exact .op (.inr hunpadded)
          ⟨⟨copy.kind, copy.op, copy.outputs, copy.inRegs, copy.outRegs⟩, copy.inputs, copy.fills⟩
          (ih hsize n)
      · exact .op (.inr hunpadded) copy (ih hsize n)
  | whole params params' even work inside _ _ ihrest =>
    exact .whole params params' even work inside (ihrest hsize n)
  | tail params params' ragged work short inside _ _ ihrest =>
    exact .tail params params' ragged work short inside (ihrest hsize n)
  | split params params1 params2 ragged work short keeps inside1 inside2 _ _ _ ihrest =>
    exact .split params params1 params2 ragged work short keeps inside1 inside2 (ihrest hsize n)

/-- What a loop is split into, its body split already: there, what has a name from `n` on is new. -/
theorem splitLoop {m : Kernel} (hl : e.loop = some l) (hwhole : l.isStatic = true → e.Whole l)
    (hbody : Filled m.config.fillTails id none body body') (hrest : Filled m.config.fillTails id size c c')
    {n : TensorId} (hknown : ∀ x ∈ body.flatten, ∀ t ∈ x.inputs, t.id < n)
    (hmakes : body'.Makes fun i => (∃ u ∈ body.outputs, u.id = i) ∨ n ≤ i)
    (b : Expr) (out : List TensorId) (n' : TensorId) :
    Filled m.config.fillTails id size (loop b e body c) ((splitLoop m b e body' out n').1.append c') := by
  have hwork : ∀ (optimize force : Bool) (l : LoopParams), (l.optimized optimize force).workAmount = l.workAmount := by
    intro optimize force l
    obtain ⟨offsets, once, heq⟩ := l.optimized_eq optimize force
    rw [heq]
  cases hstatic : l.isStatic with
  | false =>
    unfold Code.splitLoop cutLoop
    simp only [hl, hstatic, or_true, if_true]
    exact .whole hl hl (by simp [hstatic]) rfl hbody hrest
  | true =>
    have he := hwhole hstatic
    rw [Code.splitLoop, cutLoop_of_static hl hstatic]
    split
    · next hidle =>
        refine .whole hl hl (fun _ => ?_) rfl hbody hrest
        rw [hidle]
        exact Int64.zero_mod
    split
    · next heven => exact .whole hl rfl (fun _ => heven) (hwork _ _ l) hbody hrest
    next hragged =>
    split
    · refine .split hl rfl rfl hragged ?_ (hwork _ _ _) (fun x hx t ht hmade => ?_) hbody
        ((hbody.rename _).narrowed rfl _ _) hrest
      · rw [hwork, hwork]
        show (l.workAmount - l.workAmount % l.increment).toInt + (l.workAmount % l.increment).toInt = _
        rw [Amount.toInt_sub_mod he.work he.step]
        omega
      · -- only what the loop makes is renamed, and what its body has come to make is new
        refine congrArg (·.getD t) (leaves_freshNames _ out n' t.id (.inr fun u hu heq => ?_))
        obtain ⟨y, hy, huy⟩ := mem_flatMap.1 hu
        simp only [flatten, mem_cons, mem_append, not_mem_nil, or_false] at hy
        rcases hy with rfl | hy | rfl
        · exact hmade u (mem_flatMap.2 ⟨_, by simp [flatten], huy⟩) heq
        · rcases hmakes y hy u huy with ⟨v, hv, hvu⟩ | hnew
          · obtain ⟨z, hz, hvz⟩ := mem_flatMap.1 hv
            exact hmade v (mem_flatMap.2 ⟨z, by simp [flatten, hz], hvz⟩) (hvu.trans heq)
          · exact absurd (heq ▸ hknown x hx t ht) (Nat.not_lt.2 hnew)
        · exact hmade u (mem_flatMap.2 ⟨e, by simp [flatten], huy⟩) heq
    · next hless =>
        refine .tail hl rfl hragged ?_ (hwork _ _ _) (hbody.narrowed rfl _ _) hrest
        rw [hwork]
        exact Amount.mod_of_lt he.work (Int64.not_le.1 hless)

end Filled

/-- Lowered code has the fills that are recorded. -/
theorem Unsplit.filled {c : Code} (hc : c.Unsplit) {n : TensorId}
    (hknown : ∀ x ∈ c.flatten, ∀ t ∈ x.inputs, t.id < n) (m : Kernel) (out : List TensorId) :
    Filled m.config.fillTails id none c (c.lower m out n).1 := by
  induction c generalizing out n with
  | done => exact .done
  | op x rest ih =>
    exact .op (.inl rfl) ⟨⟨rfl, rfl, by simp, rfl, rfl⟩, by simp, rfl⟩ (ih hc (forall_mem_cons.1 hknown).2 _)
  | loop b e body rest ihbody ihrest =>
    obtain ⟨⟨l, hl, hwhole⟩, hbody, hrest⟩ := hc
    simp only [flatten, forall_mem_cons, forall_mem_append] at hknown
    obtain ⟨-, hinside, -, hbehind⟩ := hknown
    have hmakes : body.Makes fun i => (∃ u ∈ body.outputs, u.id = i) ∨ n ≤ i := fun x hx t ht =>
      .inl ⟨t, mem_flatMap.2 ⟨x, hx, ht⟩, rfl⟩
    refine .splitLoop hl hwhole (ihbody hbody hinside _) (ihrest hrest (fun x hx t ht => ?_) _) hinside
      (hmakes.lower (fun i hi => .inr hi) m _) b _ _
    exact Nat.lt_of_lt_of_le (hbehind x hx t ht) (Nat.le_trans (le_lower m body _ n) (le_splitLoop m b e _ _ _))

/-! ### Code that is alike -/

/-- Tags that leave the same levels free and name the same loops. -/
theorem eq_of_blurred {ids ids' : List LoopId}
    (hblurred : ids.map LoopId.blurred = ids'.map LoopId.blurred)
    (hloops : LoopId.loops ids = LoopId.loops ids') : ids = ids' := by
  have hkeeps : ∀ id : LoopId, id.blurred.isSentinel = id.isSentinel := by
    intro id
    unfold LoopId.blurred
    split
    · rfl
    · next hreal => exact (Bool.eq_false_of_not_eq_true hreal).symm
  induction ids generalizing ids' with
  | nil => exact (map_eq_nil_iff.1 hblurred.symm).symm
  | cons i rest ih =>
    obtain ⟨j, rest', rfl, hj, hrest⟩ := map_eq_cons_iff.1 hblurred.symm
    have hsame : j.isSentinel = i.isSentinel := by rw [← hkeeps, hj, hkeeps]
    cases hi : i.isSentinel with
    | true =>
      simp only [LoopId.loops, filter_cons, hsame, hi, Bool.not_true, Bool.false_eq_true, if_false] at hloops
      simp only [LoopId.blurred, hsame, hi, if_true] at hj
      rw [hj, ih hrest.symm hloops]
    | false =>
      simp only [LoopId.loops, filter_cons, hsame, hi, Bool.not_false, if_true, List.cons.injEq] at hloops
      rw [hloops.1, ih hrest.symm hloops.2]

theorem exists_ofOps_of_bare {xs : List Expr} {c d : Code} (h : (ofOps xs c).bare = d.bare) :
    ∃ ys d', d = ofOps ys d' ∧ xs.map Expr.bare = ys.map Expr.bare ∧ c.bare = d'.bare := by
  induction xs generalizing d with
  | nil => exact ⟨[], d, rfl, rfl, h⟩
  | cons x xs ih =>
    cases Alike.of_bare h with
    | @op _ y _ rest hx hrest =>
      obtain ⟨ys, d', rfl, hxs, hc⟩ := ih hrest.bare
      exact ⟨y :: ys, d', rfl, by rw [map_cons, map_cons, hx, hxs], hc⟩

theorem Covered.of_loop {b e : Expr} {body rest : Code} {ids : List LoopId}
    (h : (loop b e body rest).Covered ids) :
    body.Covered ids ∧ rest.Covered ids :=
  ⟨fun x hx => h x (by simp [flatten, hx]), fun x hx => h x (by simp [flatten, hx])⟩

theorem SharedOut.fills {fs : List Expr} {c c' : Code} (hfs : ∀ f ∈ fs, f.kind = .fill)
    (h : SharedOut c c') :
    SharedOut c (ofOps fs c') := by
  induction fs with
  | nil => exact h
  | cons f fs ih => exact .fill (hfs f mem_cons_self) (ih fun g hg => hfs g (mem_cons_of_mem f hg))

namespace Filled

variable {padding : Bool} {names : Tensor → Tensor} {size : Option Amount} {c d d' : Code}
  {ids path : List LoopId}

/-- Fills lie in the loops of the expression behind them under any names of the loops. -/
theorem congr (h : Filled padding names size c d) (hbare : d.bare = d'.bare)
    (hreal : ∀ id ∈ ids, id.isSentinel = false)
    (hlabels : d'.Labelled ids path) (hcovered : d'.Covered ids) : Filled padding names size c d' := by
  have hloops : ∀ {x : Expr} {path : List LoopId}, x.inNest = true → x.loopIds.filter (ids.contains ·) = path →
      (x.inNest = true → ∀ id ∈ x.loopIds, id.isSentinel = false → id ∈ ids) → LoopId.loops x.loopIds = path := by
    intro x path hnest hpath htags
    rw [← hpath, LoopId.loops]
    refine filter_congr fun id hid => ?_
    rw [Bool.eq_iff_iff, Bool.not_eq_true', contains_iff_mem]
    exact ⟨htags hnest id hid, hreal id⟩
  induction h generalizing d' path with
  | done =>
    cases Alike.of_bare hbare
    exact .done
  | op unpadded copy _ ih =>
    cases Alike.of_bare hbare with
    | op hy hrest =>
      exact .op unpadded (copy.congr hy) (ih hrest.bare hlabels.2 (covered_op.1 hcovered).2)
  | @padded _ _ x y fs _ _ on lanes copy tags _ ih =>
    obtain ⟨gs, d1, rfl, hgs, hbare1⟩ := exists_ofOps_of_bare hbare
    cases Alike.of_bare hbare1 with
    | @op _ z _ _ hy hrest =>
      obtain ⟨hgLabels, hzLabels, hlabels⟩ := labelled_ofOps.1 hlabels
      obtain ⟨hgCovered, hzCovered⟩ := covered_ofOps.1 hcovered
      have hcopy := copy.congr hgs hy
      refine .padded on lanes hcopy (fun g hg => ?_) (ih hrest.bare hlabels (covered_op.1 hzCovered).2)
      obtain ⟨f, hf, hfg⟩ := mem_map.1 (hgs ▸ mem_map_of_mem hg : g.bare ∈ fs.map Expr.bare)
      -- the fill and the expression leave the same levels free, and all others go to the loops
      -- around them
      have hblurred : g.loopIds.map LoopId.blurred = z.loopIds.map LoopId.blurred := by
        calc g.loopIds.map LoopId.blurred = f.loopIds.map LoopId.blurred := (congrArg Expr.loopIds hfg).symm
          _ = y.loopIds.map LoopId.blurred := by rw [tags f hf]
          _ = z.loopIds.map LoopId.blurred := congrArg Expr.loopIds hy
      obtain ⟨_, _, _, -, -, hguards⟩ := hcopy.only g hg
      have hkind : z.kind = .elementwise := by
        simp only [Tails.readsAllLanes, Bool.and_eq_true, decide_eq_true_eq] at lanes
        exact hcopy.kind.trans lanes.1
      apply eq_of_blurred hblurred
      rw [hloops (by simp [Expr.inNest, hguards.kind, OpKind.isInterface]) (hgLabels g hg) (hgCovered g hg),
        hloops (by simp [Expr.inNest, hkind, OpKind.isInterface]) hzLabels (covered_op.1 hzCovered).1]
  | whole params params' even work _ _ ihbody ihrest =>
    cases Alike.of_bare hbare with
    | loop _ he hbody hrest =>
      obtain ⟨-, ⟨l, -, -, -, hinside⟩, hlabels⟩ := hlabels
      obtain ⟨hcov, hcov'⟩ := hcovered.of_loop
      obtain ⟨id, hl⟩ := Expr.loop_of_bare params' he.symm
      exact .whole params hl even work (ihbody hbody.bare hinside hcov) (ihrest hrest.bare hlabels hcov')
  | tail params params' ragged work short _ _ ihbody ihrest =>
    cases Alike.of_bare hbare with
    | loop _ he hbody hrest =>
      obtain ⟨-, ⟨l, -, -, -, hinside⟩, hlabels⟩ := hlabels
      obtain ⟨hcov, hcov'⟩ := hcovered.of_loop
      obtain ⟨id, hl⟩ := Expr.loop_of_bare params' he.symm
      exact .tail params hl ragged work short (ihbody hbody.bare hinside hcov) (ihrest hrest.bare hlabels hcov')
  | split params params1 params2 ragged work short keeps _ _ _ ih1 ih2 ihrest =>
    cases Alike.of_bare hbare with
    | loop _ he1 hbody1 hrest =>
      cases hrest with
      | loop _ he2 hbody2 hrest =>
        obtain ⟨-, ⟨l1, -, -, -, hinside1⟩, -, ⟨l2, -, -, -, hinside2⟩, hlabels⟩ := hlabels
        obtain ⟨hcov1, hcov⟩ := hcovered.of_loop
        obtain ⟨hcov2, hcov⟩ := hcov.of_loop
        obtain ⟨id1, hl1⟩ := Expr.loop_of_bare params1 he1.symm
        obtain ⟨id2, hl2⟩ := Expr.loop_of_bare params2 he2.symm
        exact .split params hl1 hl2 ragged work short keeps (ih1 hbody1.bare hinside1 hcov1)
          (ih2 hbody2.bare hinside2 hcov2)
          (ihrest hrest.bare hlabels hcov)

/-- Code with fills does the work of the code. -/
theorem sharedOut (h : Filled padding names size c d) : SharedOut c d := by
  induction h with
  | done => exact .done
  | op _ copy _ ih => exact .op copy.kind copy.op ih
  | @padded _ _ x y fs _ _ _ _ copy _ _ ih =>
    refine .fills (fun f hf => ?_) (.op copy.kind copy.op ih)
    obtain ⟨_, _, _, -, -, hguards⟩ := copy.only f hf
    exact hguards.kind
  | whole params params' _ work _ _ ihbody ihrest => exact .whole params params' work ihbody ihrest
  | tail params params' _ work _ _ _ ihbody ihrest => exact .whole params params' work ihbody ihrest
  | split params params1 params2 _ work _ _ _ _ _ ih1 ih2 ihrest =>
    exact .split params params1 params2 work ih1 ih2 ihrest

end Filled

end Code

end KernelLoops
