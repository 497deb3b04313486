import KernelLoops.Proofs.Scaling

set_option autoImplicit false

/-! # Splitting all loops of a kernel

One closing marker after the other is visited. A loop is split when the loops inside it have been,
so the induction runs over the code from front to back and from inside outward, as `Code.cut`
does. -/

namespace KernelLoops.Tails

open List

variable {m : Kernel} {c : Code} {blocks : Bool} {offsets : List Amount} {ids path : List LoopId}
  {out : List TensorId}

namespace Holds

variable {k : Kernel} {xs : List Expr} {b e : Expr} {l : LoopParams}

/-! ## Buffers -/

theorem any_consumers {k : Kernel} (h : k.Lists xs) (t : TensorId) :
    ((k.consumers t).any fun p => (k.expr p.expr).kind = .buffer) = true ↔
      ∃ x ∈ xs, x.kind = .buffer ∧ t ∈ x.inputIds := by
  simp only [any_eq_true, decide_eq_true_eq, h.mem_consumers]
  constructor
  · rintro ⟨p, ⟨x, hx, hpx, -, u, hu, rfl⟩, hkind⟩
    rw [hpx, h.read x hx] at hkind
    exact ⟨x, hx, hkind, mem_map_of_mem (mem_of_getElem? hu)⟩
  · rintro ⟨x, hx, hkind, hxt⟩
    obtain ⟨u, hu, rfl⟩ := mem_map.1 hxt
    obtain ⟨index, hindex⟩ := mem_iff_getElem?.1 hu
    refine ⟨⟨x.id, .input, index⟩, ⟨x, hx, rfl, rfl, u, hindex, rfl⟩, ?_⟩
    rw [h.read x hx]
    exact hkind

/-- Whether a loop touches a buffer is settled before the first tail is split. -/
theorem touchesBuffer_eq (h : Holds m k xs) (hknown : ∀ t ∈ e.inputs, t.id < m.nextTensor)
    (l : LoopParams) :
    Tails.touchesBuffer k e l = Tails.touchesBuffer m e l := by
  have hentry : (fun i => do
      let t ← e.input i
      return (k.producer? t.id).any fun p => p.kind = .buffer : Int → Except Failure Bool) = fun i => do
      let t ← e.input i
      return (m.producer? t.id).any fun p => p.kind = .buffer := by
    funext i
    cases ht : e.input i with
    | error f => rfl
    | ok t =>
      obtain ⟨index, -, hindex⟩ := of_fetch_ok ht
      have hlt := hknown t (mem_of_getElem? hindex)
      exact congrArg Except.ok (h.grown.any_producer? h.start hlt .buffer)
  have hexit : (fun i => do
      let t ← e.input i
      return (k.consumers t.id).any fun p => (k.expr p.expr).kind = .buffer : Int → Except Failure Bool) = fun i => do
      let t ← e.input i
      return (m.consumers t.id).any fun p => (m.expr p.expr).kind = .buffer := by
    funext i
    cases ht : e.input i with
    | error f => rfl
    | ok t =>
      obtain ⟨index, -, hindex⟩ := of_fetch_ok ht
      have hlt := hknown t (mem_of_getElem? hindex)
      refine congrArg Except.ok (Bool.eq_iff_iff.2 ?_)
      rw [any_consumers h.lists, any_consumers h.start]
      exact h.buffers t.id hlt
  unfold Tails.touchesBuffer
  rw [hentry, hexit]

/-! ## Building a tail -/

/-- What building a tail looks up first. -/
theorem buildTail_run (h : Holds m k xs) (hb : b ∈ xs) (he : e ∈ xs) (htied : Code.Tied xs b e)
    (hl : e.loop = some l) {info : LoopInfo} (hinfo : k.loops.get? l.id = some info) (vector : Bool) (size : Amount)
    (offsets : List Amount) (touches : Bool) :
    Tails.buildTail e.id vector size offsets touches k = (do
      let tail ← tailOf vector b.id e.id l.id
      Edit.modifyLoop tail.id fun i => { i with workAmount := size, increment := size }
      if info.split then Tails.scaleInners tail info.dim size
      Tails.finishTail tail e.id size offsets touches : Edit Unit) k := by
  have hbegin : Edit.ask (·.loopBeginOf e.id) k = .ok b.id k := Edit.ask_run_ok (h.lists.loopBeginOf hb he htied)
  unfold Tails.buildTail
  rw [bind_run_ok hbegin, bind_run_ok (h.lists.ask_params he hl), bind_run_ok (Edit.ask_loopInfo hinfo)]

end Holds

namespace Stands

variable {k k' : Kernel} {pre post : List Expr} {b e : Expr} {l : LoopParams}

/-- Without a vector loop, the loop itself becomes the tail. -/
theorem buildTail_inPlace (h : Stands m k pre post (.loop b e c .done)) (hl : e.loop = some l)
    (hoffsets : offsets.length ≤ l.ptrIncrements.length) (size : Amount) (touches : Bool)
    (hreg : (Code.loop b e c .done).Registered k.loops ids path) (hcuts : Code.Cuts k.loops blocks l c) :
    ∃ (c' : Code) (k' : Kernel),
      let l' : LoopParams := { l with workAmount := size, increment := size, finalOffsets := offsets, once := false }
      let tail := c.shrunk blocks m.config.fillTails size k.nextTensor
      Tails.buildTail e.id false size offsets touches k = .ok () k' ∧
      Became m k k' ids path pre post (.loop b e c .done) c'
        (.loop b (e.withParams (l'.optimized m.config.evaluateOnce touches)) tail.1 .done, tail.2) := by
  let resize : LoopInfo → LoopInfo := fun i => { i with workAmount := size, increment := size }
  have hresize : ∀ i, (resize i).Kin i := fun _ => ⟨rfl, rfl⟩
  let l' : LoopParams := { l with workAmount := size, increment := size, finalOffsets := offsets, once := false }
  obtain ⟨info, hinfo⟩ := h.holds.loopInfo (x := e) (by simp [Code.flatten]) h.nested.1.closes hl
  obtain ⟨hsplit, halong⟩ := hcuts info hinfo
  obtain ⟨k1, hrun1, hk1, hnext1, hloops1⟩ := h.holds.modifyLoop l.id resize
  have hown : Code.Relabels k.loops k1.loops ids path (.loop b e c .done)
      (.loop b (e.withParams (l'.optimized m.config.evaluateOnce touches)) c .done) [] := by
    rw [hloops1]
    exact .modifyLoop hreg hl _ (by simp [l']) hresize (by simp [resize, l']) (by simp [resize, l'])
  have halong1 : blocks = true → c.Along k1.loops info.dim := by
    intro hblocks
    rw [hloops1]
    exact (halong hblocks).modify l.id hresize
  obtain ⟨c', k', hrun, h', hbody⟩ := shrinkTail ⟨hk1, h.nested⟩ hl (mem_append_right pre mem_cons_self) hl
    hoffsets l.id size touches (hown.registered.inside rfl).1 halong1
  refine ⟨_, k', ?_, h', hnext1 ▸ .inLoop hown hnext1 hbody⟩
  rw [h.holds.buildTail_run (by simp [Code.flatten]) (by simp [Code.flatten]) h.nested.1 hl hinfo, hsplit]
  have htail : tailOf false b.id e.id l.id k = .ok ⟨some b.id, some e.id, l.id⟩ k := rfl
  exact (bind_run_ok htail).trans ((bind_run_ok hrun1).trans hrun)

/-- Behind a vector loop, the tail is a copy of the loop. -/
theorem buildTail_copied (h : Stands m k pre post (.loop b e c .done)) (hl : e.loop = some l)
    (hoffsets : offsets.length ≤ l.ptrIncrements.length) (size : Amount) (touches : Bool)
    (hout : ReadIn out (pre ++ post)) (hreg : (Code.loop b e c .done).Registered k.loops ids path)
    (hcuts : Code.Cuts k.loops blocks l c) {names : List (TensorId × Tensor) × TensorId}
    (hnames : names = freshNames ((Code.loop b e c .done).outputs.filter fun t => !out.contains t.id) [] k.nextTensor) :
    ∃ (c' : Code) (k' : Kernel),
      let l' : LoopParams := { l with workAmount := size, increment := size, finalOffsets := offsets, once := false }
      let tail := (c.map (Expr.rename names.1)).shrunk blocks m.config.fillTails size names.2
      Tails.buildTail e.id true size offsets touches k = .ok () k' ∧
      Became m k k' ids path pre post (.loop b e c .done) c' (.loop b e c (.loop (b.rename names.1)
        ((e.rename names.1).withParams (l'.optimized m.config.evaluateOnce touches)) tail.1 .done), tail.2) := by
  have hloop : ∀ x ∈ (Code.loop b e c .done).flatten, x ∈ b :: (c.flatten ++ [e]) := fun x hx => hx
  let resize : LoopInfo → LoopInfo := fun i => { i with workAmount := size, increment := size }
  have hresize : ∀ i, (resize i).Kin i := fun _ => ⟨rfl, rfl⟩
  obtain ⟨info, hinfo⟩ := h.holds.loopInfo (x := e) (by simp [Code.flatten]) h.nested.1.closes hl
  obtain ⟨hsplit, halong⟩ := hcuts info hinfo
  obtain ⟨copy, id, k1, new, hrun1, hcopied, himage, hk1, hnext1, hj, hrelabels1⟩ :=
    h.holds.copyLoop hl hout hnames hreg
  obtain ⟨hc1, htail1⟩ := hcopied.nested h.nested hloop
  obtain ⟨k2, hrun2, hk2, hnext2, hloops2⟩ := hk1.modifyLoop id resize
  obtain ⟨hfirst, hsecond, -⟩ := hrelabels1.registered.of_append
  let l' : LoopParams := { l with workAmount := size, increment := size, finalOffsets := offsets, once := false }
  let e' := (copy e).withParams (({ l' with id } : LoopParams).optimized m.config.evaluateOnce touches)
  have hown : Code.Relabels k1.loops k2.loops (ids ++ new) path (.loop (copy b) (copy e) (c.map copy) .done)
      (.loop (copy b) e' (c.map copy) .done) [] := by
    rw [hloops2]
    exact .modifyLoop hsecond hj _ (by simp) hresize (by simp [resize, l']) (by simp [resize, l'])
  -- the loops inside the copy go over the dimension of those they were copied from
  have halong2 : blocks = true → (c.map copy).Along k2.loops info.dim := by
    intro hblocks
    have hall := hrelabels1.along ((halong hblocks).loop b hl hinfo rfl)
    rw [hloops2]
    refine Code.Along.modify (fun i hi => hall i ?_) id hresize
    rw [Code.names_append]
    exact mem_append_right _ (by simp [Code.map, Code.names, hi])
  -- the copy lies behind what has been there
  have hcopies : (Code.loop (copy b) (copy e) (c.map copy) .done).flatten =
      (Code.loop b e c .done).flatten.map copy := by
    simp [Code.flatten, Code.flatten_map]
  have hlist : pre ++ ((Code.loop b e c .done).flatten ++ (Code.loop b e c .done).flatten.map copy) ++ post =
      (pre ++ (Code.loop b e c .done).flatten) ++ (Code.loop (copy b) (copy e) (c.map copy) .done).flatten ++ post := by
    rw [hcopies]
    simp
  rw [hlist] at hk2 hc1 htail1
  have he0 : e ∈ (pre ++ (Code.loop b e c .done).flatten) ++ [copy e] := by simp [Code.flatten]
  obtain ⟨c', k', hrun, h', hbody⟩ := shrinkTail ⟨hk2, htail1⟩ hj he0 hl hoffsets id size touches
    (hown.registered.inside rfl).1 halong2
  obtain ⟨hev, hbare, hnext, new', hlabels⟩ := Recoded.inLoop hown hnext2 hbody
  rw [hnext1] at hev
  rw [hnext2, hnext1] at hbare hnext
  obtain ⟨hbare', hnext'⟩ := Code.shrunk_congr blocks m.config.fillTails size
    (Code.bare_map_congr (c := c) fun x _ => himage x) names.2
  have hend : e'.bare = ((e.rename names.1).withParams (l'.optimized m.config.evaluateOnce touches)).bare := by
    rw [Expr.bare_withParams, Expr.bare_withParams, LoopParams.optimized_rename, himage e]
  have hfinal : pre ++ (Code.loop b e c (.loop (copy b) e' c' .done)).flatten ++ post =
      (pre ++ (Code.loop b e c .done).flatten) ++ (Code.loop (copy b) e' c' .done).flatten ++ post := by
    simp [Code.flatten]
  have hloop2 : (Code.loop b e c .done).Nested
      ((pre ++ (Code.loop b e c .done).flatten) ++ (Code.loop (copy b) e' c' .done).flatten ++ post) := by
    refine hc1.evolves hev (fun y hy hy' => ?_) fun y hy => ?_
    · exact disjoint_of_nodup_append (nodup_append.1 hk2.nodup).1 (mem_append_right pre hy) hy'
    · have hknown := hk2.known (x := y) (mem_append_left _ (mem_append_left _ (mem_append_right pre hy)))
      rwa [hnext2, hnext1] at hknown
  refine ⟨.loop b e c (.loop (copy b) e' c' .done), k', ?_, ⟨hfinal ▸ h'.holds, ?_⟩, ?_, ?_, hnext.trans hnext', _,
    hrelabels1.trans (.append hrelabels1.registered (.refl hfirst) (by rw [append_nil]; exact hlabels))⟩
  · rw [h.holds.buildTail_run (by simp [Code.flatten]) (by simp [Code.flatten]) h.nested.1 hl hinfo, hsplit]
    have htail : tailOf true b.id e.id l.id k = .ok ⟨some (copy b).id, some (copy e).id, id⟩ k1 := hrun1
    exact (bind_run_ok htail).trans ((bind_run_ok hrun2).trans hrun)
  · rw [hfinal]
    exact ⟨hloop2.1, hloop2.2.1, h'.nested⟩
  · have hboth := (Evolves.refl names.2 (Code.loop b e c .done).flatten).append hev
    rw [hcopies] at hboth
    simpa [Code.flatten] using hcopied.evolves.trans hboth hcopied.fresh.le
  · refine congrArg (Code.loop b.bare e.bare c.bare) (hbare.trans ?_)
    rw [Code.bare_loop, himage b, hbare']
    exact congrArg (Code.loop (b.rename names.1).bare · _ .done) hend

end Stands

/-! ## Splitting one loop -/

/-- A closing marker whose loop can be split: its amounts are known and make sense, it has not been
    split yet, and its operands are those of the kernel at the start. -/
structure Ready (m : Kernel) (e : Expr) (l : LoopParams) : Prop where
  params : e.loop = some l
  static : l.isStatic = true
  offsets : l.finalOffsets.length ≤ l.ptrIncrements.length
  unsplit : l.once = false
  work : 0 ≤ l.workAmount
  step : 0 < l.increment
  touches : Tails.touchesBuffer m e l = .ok (m.touches e l)
  known : ∀ t ∈ e.inputs, t.id < m.nextTensor

variable {k k' : Kernel} {xs pre post : List Expr} {b e x : Expr} {l : LoopParams}

/-- What splitting a loop looks up first. -/
theorem Holds.split_run (h : Holds m k xs) (he : e ∈ xs) (hr : Ready m e l)
    (hwork : l.workAmount ≠ 0) :
    Tails.split e.id k = (do
      if decide (l.workAmount ≥ l.increment) then
        Tails.buildVector e.id l (l.workAmount % l.increment) (m.touches e l)
      if l.workAmount % l.increment ≠ 0 then
        Tails.buildTail e.id (l.workAmount ≥ l.increment) (l.workAmount % l.increment) l.finalOffsets (m.touches e l)
      return true : Edit Bool) k := by
  have hgo : ¬ (l.once || decide (l.workAmount = 0) || !l.isStatic) = true := by
    simp [hr.unsplit, hr.static, hwork]
  have hsize : Edit.ask (fun _ => remainder l.workAmount l.increment) k = .ok (l.workAmount % l.increment) k := by
    refine Edit.ask_run_ok (if_neg fun hzero => ?_)
    exact absurd (hzero ▸ hr.step) (by decide)
  have htouches : Edit.ask (fun k => Tails.touchesBuffer k (k.expr e.id) l) k = .ok (m.touches e l) k := by
    refine Edit.ask_run_ok ?_
    rw [h.lists.read e he, h.touchesBuffer_eq hr.known, hr.touches]
  unfold Tails.split
  rw [bind_run_ok (h.lists.ask_params he hr.params), if_neg hgo, bind_run_ok hsize, bind_run_ok htouches]

namespace Stands

variable (h : Stands m k pre post (.loop b e c .done))
  (hreg : (Code.loop b e c .done).Registered k.loops ids path)

include h hreg

/-- A loop that its increment divides has no tail. -/
theorem split_whole (hr : Ready m e l) (hwork : l.workAmount ≠ 0)
    (hsize : l.workAmount % l.increment = 0) :
    ∃ (c' : Code) (k' : Kernel), Tails.split e.id k = .ok true k' ∧
      Became m k k' ids path pre post (.loop b e c .done) c'
        (.loop b (e.withParams (l.optimized m.config.evaluateOnce (m.touches e l))) c .done, k.nextTensor) := by
  have hvector : l.workAmount ≥ l.increment := Amount.le_of_mod_eq_zero hr.work hwork hsize
  obtain ⟨k', hrun, h', hnext, hloops⟩ := h.optimize hr.params hr.offsets (m.touches e l)
  obtain ⟨-, -, -, -, -, ⟨info, hinfo, hamounts⟩, -⟩ := hreg.inside hr.params
  have hmatch : k.loops.Matches (l.optimized m.config.evaluateOnce (m.touches e l)) := by
    refine ⟨info, ?_⟩
    rw [LoopParams.id_optimized, LoopParams.workAmount_optimized, LoopParams.increment_optimized]
    exact ⟨hinfo, hamounts⟩
  refine ⟨_, k', ?_, h', .withParams _ _ _ _ _, rfl, hnext, [],
    hloops ▸ .setLoop hreg hr.params (l.id_optimized _ _) (fun _ _ => rfl) (fun _ h => h) hmatch
      fun info' hinfo' => ⟨info', hinfo', .refl info'⟩⟩
  rw [h.holds.split_run (by simp [Code.flatten]) hr hwork, if_pos (decide_eq_true hvector), hsize,
    if_neg (not_not.2 rfl)]
  have hbuild : Tails.buildVector e.id l 0 (m.touches e l) k = .ok () k' := hrun
  exact (bind_run_ok hbuild).trans rfl

/-- A loop with a remainder is followed by its tail. -/
theorem split_copied (hr : Ready m e l)
    (hcuts : Code.Cuts k.loops blocks l c) (hout : ReadIn out (pre ++ post)) (hwork : l.workAmount ≠ 0)
    (hsize : l.workAmount % l.increment ≠ 0) (hvector : l.workAmount ≥ l.increment) :
    ∃ (c' : Code) (k' : Kernel), Tails.split e.id k = .ok true k' ∧
      Became m k k' ids path pre post (.loop b e c .done) c'
        (Code.withTail blocks m b e l c (l.workAmount % l.increment) out k.nextTensor) := by
  let shorten : LoopInfo → LoopInfo := fun i => { i with workAmount := l.workAmount - l.workAmount % l.increment }
  have hshorten : ∀ i, (shorten i).Kin i := fun _ => ⟨rfl, rfl⟩
  let l1 := (l.shortened (l.workAmount % l.increment)).optimized m.config.evaluateOnce true
  have hid : l1.id = l.id := LoopParams.id_optimized _ _ _
  obtain ⟨k1, hrun1, h1, hnext1, hloops1⟩ := h.buildShortened hr.params hr.offsets hsize (m.touches e l)
  have hrelabels1 : Code.Relabels k.loops k1.loops ids path (.loop b e c .done)
      (.loop b (e.withParams l1) c .done) [] := by
    rw [hloops1]
    exact .modifyLoop hreg hr.params l1 hid hshorten (by simp [l1, LoopParams.shortened])
      (by simp [l1, LoopParams.shortened])
  have hcuts1 : Code.Cuts k1.loops blocks l1 c := by
    rw [hloops1, Code.Cuts, hid]
    exact hcuts.modify l.id hshorten
  have hoffsets : l.finalOffsets.length ≤ l1.ptrIncrements.length := by
    rw [LoopParams.ptrIncrements_optimized]
    exact hr.offsets
  have hfirst : Became m k k1 ids path pre post (.loop b e c .done) (.loop b (e.withParams l1) c .done)
      (.loop b (e.withParams l1) c .done, k.nextTensor) := ⟨h1, .withParams _ _ _ _ _, rfl, hnext1, [], hrelabels1⟩
  obtain ⟨c', k', hrun, hbecame⟩ := h1.buildTail_copied rfl hoffsets (l.workAmount % l.increment) (m.touches e l) hout
    hrelabels1.registered hcuts1 rfl
  rw [LoopParams.tail_shortened, Expr.withParams_rename_withParams, hnext1] at hbecame
  refine ⟨c', k', ?_, hfirst.trans hrelabels1 hbecame (Nat.le_of_eq hnext1.symm)⟩
  rw [h.holds.split_run (by simp [Code.flatten]) hr hwork, if_pos (decide_eq_true hvector), if_pos hsize,
    decide_eq_true hvector]
  exact (bind_run_ok hrun1).trans ((bind_run_ok hrun).trans rfl)

/-- A loop over less than one increment is all tail. -/
theorem split_inPlace (hr : Ready m e l)
    (hcuts : Code.Cuts k.loops blocks l c) (hwork : l.workAmount ≠ 0) (hsize : l.workAmount % l.increment ≠ 0)
    (hvector : ¬ l.workAmount ≥ l.increment) :
    ∃ (c' : Code) (k' : Kernel), Tails.split e.id k = .ok true k' ∧
      Became m k k' ids path pre post (.loop b e c .done) c'
        (Code.asTail blocks m b e l c (l.workAmount % l.increment) k.nextTensor) := by
  obtain ⟨c', k', hrun, hbecame⟩ :=
    h.buildTail_inPlace hr.params hr.offsets (l.workAmount % l.increment) (m.touches e l) hreg hcuts
  refine ⟨c', k', ?_, hbecame⟩
  rw [h.holds.split_run (by simp [Code.flatten]) hr hwork, if_neg (by simpa using hvector), if_pos hsize,
    decide_eq_false hvector]
  exact (bind_run_ok hrun).trans rfl

/-- Splitting a loop does to it what `Code.cutLoop` says. -/
theorem split (hl : e.loop = some l)
    (hr : l.isStatic = true → Ready m e l) (hcuts : Code.Cuts k.loops blocks l c) (hout : ReadIn out (pre ++ post)) :
    ∃ (c' : Code) (k' : Kernel) (changed : Bool), Tails.split e.id k = .ok changed k' ∧
      Became m k k' ids path pre post (.loop b e c .done) c' (Code.cutLoop blocks m b e c out k.nextTensor) := by
  unfold Code.cutLoop
  simp only [hl]
  by_cases hstays : l.workAmount = 0 ∨ l.isStatic = false
  · rw [if_pos hstays]
    refine ⟨.loop b e c .done, k, false, ?_, .refl h hreg⟩
    unfold Tails.split
    rw [bind_run_ok (h.holds.lists.ask_params (by simp [Code.flatten]) hl),
      if_pos (by rcases hstays with hstays | hstays <;> simp [hstays])]
    rfl
  rw [if_neg hstays]
  rw [not_or, Bool.not_eq_false] at hstays
  obtain ⟨hwork, hstatic⟩ := hstays
  replace hr := hr hstatic
  by_cases hsize : l.workAmount % l.increment = 0
  · rw [if_pos hsize]
    obtain ⟨c', k', hrun, hbecame⟩ := h.split_whole hreg hr hwork hsize
    exact ⟨c', k', true, hrun, hbecame⟩
  rw [if_neg hsize]
  by_cases hvector : l.workAmount ≥ l.increment
  · rw [if_pos hvector]
    obtain ⟨c', k', hrun, hbecame⟩ := h.split_copied hreg hr hcuts hout hwork hsize hvector
    exact ⟨c', k', true, hrun, hbecame⟩
  · rw [if_neg hvector]
    obtain ⟨c', k', hrun, hbecame⟩ := h.split_inPlace hreg hr hcuts hwork hsize hvector
    exact ⟨c', k', true, hrun, hbecame⟩

end Stands

/-! ## Splitting all loops -/

/-- An expression that closes no loop is passed over. -/
theorem Holds.visit_other (h : Holds m k xs) (hx : x ∈ xs) (hkind : x.kind ≠ .loopEnd)
    (modified : Bool) :
    Tails.visit modified x.id k = .ok modified k := by
  unfold Tails.visit
  rw [get_bind_run, h.lists.read x hx, if_pos hkind]
  rfl

theorem Holds.visit_end (h : Holds m k xs) (he : e ∈ xs) (hkind : e.kind = .loopEnd) {changed : Bool}
    (hsplit : Tails.split e.id k = .ok changed k') (modified : Bool) :
    Tails.visit modified e.id k = .ok (modified || changed) k' := by
  unfold Tails.visit
  rw [get_bind_run, h.lists.read e he, if_neg (not_not.2 hkind)]
  exact (bind_run_ok hsplit).trans rfl

/-- Going through the closing markers of the code does to it what `Code.cut` says. -/
theorem Stands.visitAll (h : Stands m k pre post c)
    (hready : ∀ e ∈ c.flatten, e.kind = .loopEnd → ∃ l, e.loop = some l ∧ (l.isStatic = true → Ready m e l))
    (hreg : c.Registered k.loops ids path) {blocks : Expr → Bool} (hblocked : c.Blocked k.loops blocks)
    (hout : ReadIn out (pre ++ post)) (modified : Bool) :
    ∃ (c' : Code) (k' : Kernel) (modified' : Bool),
      (c.flatten.map Expr.id).foldlM Tails.visit modified k = .ok modified' k' ∧
      Became m k k' ids path pre post c c' (c.cut blocks m out k.nextTensor) := by
  induction c generalizing pre post k ids path out modified with
  | done => exact ⟨.done, k, modified, rfl, .refl h hreg⟩
  | op x rest ih =>
    have hboth : ((Code.op x .done).append rest).Registered k.loops ids path := hreg
    have hskip : Tails.visit modified x.id k = .ok modified k :=
      h.holds.visit_other (by simp [Code.flatten]) (OpKind.ne_loopEnd_of_isMarker h.nested.1) modified
    have hout' : ReadIn (x.inputIds ++ out) ((pre ++ [x]) ++ post) := hout.insert (.expr x)
    obtain ⟨new, hstands, hrestReg, hframe, hjoin⟩ := (Became.refl (of_append (c := .op x .done) h).1
      hboth.of_append.1).follow hboth h (Nat.le_refl _)
    obtain ⟨rest', k', modified', hrun, hrest⟩ := ih hstands (fun e he => hready e (mem_cons_of_mem x he)) hrestReg
      (Code.Blocked.congr (c := rest) hblocked hframe) hout' modified
    exact ⟨_, k', modified', (bind_run_ok hskip).trans hrun, hjoin hrest⟩
  | loop b e body rest ihbody ihrest =>
    obtain ⟨l, hl, hlready⟩ := hready e (by simp [Code.flatten]) h.nested.1.closes
    have hboth : ((Code.loop b e body .done).append rest).Registered k.loops ids path := hreg
    have hfirst := (of_append (c := .loop b e body .done) h).1
    have hfirstReg := hboth.of_append.1
    obtain ⟨hown, hinside, hbehind⟩ := hblocked
    obtain ⟨hbodyReg, hmem, -, hnot, -⟩ := hfirstReg.inside hl
    -- the opening marker is passed over, then the body is split
    have hskip : Tails.visit modified b.id k = .ok modified k :=
      h.holds.visit_other (by simp [Code.flatten]) (by rw [h.nested.1.opens]; decide) modified
    have houtLoop : ReadIn (rest.inputIds ++ out) (pre ++ (rest.flatten ++ post)) := by
      simpa using hout.insert (.code rest)
    have houtEnd : ReadIn (e.inputIds ++ (rest.inputIds ++ out)) (pre ++ e :: (rest.flatten ++ post)) := by
      simpa using houtLoop.insert (.expr e)
    have houtBody : ReadIn (b.inputIds ++ (e.inputIds ++ (rest.inputIds ++ out)))
        ((pre ++ [b]) ++ (e :: (rest.flatten ++ post))) := houtEnd.insert (.expr b)
    obtain ⟨body', k1, modified1, hrun1, hbody'⟩ := ihbody hfirst.inside
      (fun x hx => hready x (by simp [Code.flatten, hx])) hbodyReg hinside houtBody modified
    -- the loop is split
    have hloop := hbody'.loopBody hfirst hl hfirstReg
    obtain ⟨new1, hnew1⟩ := hloop.labels
    obtain ⟨newBody, hnewBody⟩ := hbody'.labels
    have hcuts := (hown l hl).inside hnewBody hnot (hfirstReg.known l.id hmem)
    obtain ⟨c2, k2, changed, hrun2, hsplit⟩ := hloop.toStands.split hnew1.registered hl hlready hcuts houtLoop
    have hvisit := hloop.holds.visit_end (by simp [Code.flatten]) h.nested.1.closes hrun2 modified1
    let inner := body.cut blocks m (b.inputIds ++ (e.inputIds ++ (rest.inputIds ++ out))) k.nextTensor
    obtain ⟨hbare, hnext⟩ := Code.cutLoop_congr (blocks e) m b e hbody'.bare (rest.inputIds ++ out) inner.2
    have hinner : k.nextTensor ≤ k1.nextTensor := hbody'.next ▸ body.le_cut blocks m _ _
    have hle : k1.nextTensor ≤ k2.nextTensor := hsplit.next ▸ Code.le_cutLoop _ m b e _ _ _
    rw [hbody'.next] at hsplit
    have hfirst' : Became m k k2 ids path pre (rest.flatten ++ post) (.loop b e body .done) c2
        (Code.cutLoop (blocks e) m b e inner.1 (rest.inputIds ++ out) inner.2) :=
      (hloop.trans hnew1 hsplit hinner).retarget _ hbare hnext
    -- what follows is split
    obtain ⟨new, hstands, hrestReg, hframe, hjoin⟩ := hfirst'.follow hboth h (Nat.le_trans hinner hle)
    have houtRest : ReadIn (c2.inputIds ++ out) ((pre ++ c2.flatten) ++ post) := hout.insert (.code c2)
    obtain ⟨rest', k3, modified3, hrun3, hrest'⟩ := ihrest hstands (fun x hx => hready x (by simp [Code.flatten, hx]))
      hrestReg (hbehind.congr hframe) houtRest (modified1 || changed)
    have hnames : c2.inputIds =
        (Code.cutLoop (blocks e) m b e inner.1 (rest.inputIds ++ out) inner.2).1.inputIds := by
      rw [← Code.inputIds_bare, hfirst'.bare, Code.inputIds_bare]
    rw [hnames, hfirst'.next] at hrest'
    refine ⟨_, k3, modified3, ?_, hjoin hrest'⟩
    have hids : (Code.loop b e body rest).flatten.map Expr.id =
        b.id :: (body.flatten.map Expr.id ++ e.id :: rest.flatten.map Expr.id) := by simp [Code.flatten]
    rw [hids]
    refine (bind_run_ok hskip).trans ?_
    rw [foldlM_append]
    exact (bind_run_ok hrun1).trans ((bind_run_ok hvisit).trans hrun3)

/-- Splitting the tails of a kernel leaves one that lists the split code, with registered loops. -/
theorem run_cut (hm : m.Lists c.flatten) (hc : c.Nested c.flatten) (hloops : m.loops.Numbered)
    (hreg : c.Registered m.loops ids []) {blocks : Expr → Bool} (hblocked : c.Blocked m.loops blocks)
    (hready : ∀ e ∈ c.flatten, e.kind = .loopEnd → ∃ l, e.loop = some l ∧ (l.isStatic = true → Ready m e l)) :
    ∃ (c' : Code) (k' : Kernel) (changed : Bool), Tails.run m = .ok changed k' ∧ k'.Lists c'.flatten ∧
      c'.Nested c'.flatten ∧ c'.bare = (c.cut blocks m [] m.nextTensor).1.bare ∧ k'.config = m.config ∧
      ∃ new, Code.Relabels m.loops k'.loops ids [] c c' new := by
  have hsequence := hm.sequence
  have hstart : Holds m m ([] ++ c.flatten ++ []) := by
    rw [nil_append, append_nil]
    exact ⟨hsequence ▸ hm, hm, .refl m, hloops, hreg.tagged, fun t _ => by rw [hsequence]⟩
  have hout : ReadIn [] ([] ++ [] : List Expr) := by simp [ReadIn]
  obtain ⟨c', k', changed, hrun, hbecame⟩ :=
    (Stands.mk hstart (by simpa using hc)).visitAll hready hreg hblocked hout false
  have hlists := hbecame.holds.lists
  have hnested := hbecame.nested
  rw [nil_append, append_nil] at hlists hnested
  refine ⟨c', k', changed, ?_, hlists, hnested, hbecame.bare, hbecame.holds.grown.config, hbecame.labels⟩
  unfold Tails.run
  rw [get_bind_run, hm.order]
  exact hrun

/-- Splitting the tails of a kernel without loops that are cut into blocks leaves one that lists the
    lowered code. -/
theorem run_eq (hm : m.Lists c.flatten) (hc : c.Nested c.flatten) (hloops : m.loops.Plain)
    (hreg : c.Registered m.loops ids [])
    (hready : ∀ e ∈ c.flatten, e.kind = .loopEnd → ∃ l, e.loop = some l ∧ (l.isStatic = true → Ready m e l)) :
    ∃ (c' : Code) (k' : Kernel) (changed : Bool), Tails.run m = .ok changed k' ∧ k'.Lists c'.flatten ∧
      c'.Nested c'.flatten ∧ c'.bare = (c.lower m [] m.nextTensor).1.bare ∧ k'.config = m.config ∧
      ∃ new, Code.Relabels m.loops k'.loops ids [] c c' new :=
  run_cut hm hc hloops.toNumbered hreg (Code.blocked_of_plain hloops c) hready

end KernelLoops.Tails
