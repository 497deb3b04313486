import KernelLoops.Proofs.Splitting

set_option autoImplicit false

/-! # Scaling the loops inside a tail

The tail of a loop that is cut into blocks has less work than one block, so the loops inside it that
go over the same dimension are scaled down, inner loops first. On the code this is
`Code.scaledTo`. -/

namespace KernelLoops

open List

variable {k k' m : Kernel} {c c' : Code} {b e x : Expr} {post pre : List Expr} {l : LoopParams}
  {blocks : Bool}
  {ids new path : List LoopId} {f : LoopInfo → LoopInfo}

namespace Code

variable {t t' : LoopTable} {dim : Amount}

/-- The loops of the code go over one dimension. -/
def Along (t : LoopTable) (dim : Amount) (c : Code) : Prop :=
  ∀ id ∈ c.names, ∀ info, t.get? id = some info → info.dim = dim

theorem Relabels.along (h : Relabels t t' ids path c c' new) (hc : c.Along t dim) :
    c'.Along t' dim := by
  intro i hi info hinfo
  obtain ⟨j, hj, info', hinfo', hkin⟩ := h.kin i hi info hinfo
  exact hkin.dim.trans (hc j hj info' hinfo')

/-- The table may change where the code has no loops. -/
theorem Along.congr (hc : c.Along t dim) (h : ∀ id ∈ c.names, t'.get? id = t.get? id) :
    c.Along t' dim :=
  fun i hi info hinfo => hc i hi info ((h i hi).symm.trans hinfo)

/-- The dimension of a loop and of those inside it. -/
theorem Along.loop (hc : c.Along t dim) (b : Expr) (hl : e.loop = some l) {info : LoopInfo}
    (hinfo : t.get? l.id = some info) (hdim : info.dim = dim) : (loop b e c done).Along t dim := by
  intro i hi info' hinfo'
  simp only [names, hl, Option.toList_some, map_cons, map_nil, mem_append, mem_singleton,
    not_mem_nil, or_false] at hi
  rcases hi with rfl | hi
  · exact Option.some.inj (hinfo.symm.trans hinfo') ▸ hdim
  · exact hc i hi info' hinfo'

/-- Changing the amounts of a loop keeps its dimension. -/
theorem Along.modify (hc : c.Along t dim) (id : LoopId) (hf : ∀ i, (f i).Kin i) :
    c.Along (t.modify id f) dim := by
  intro i hi info hinfo
  obtain ⟨info0, hinfo0, hkin⟩ := LoopTable.kin_modify hf hinfo
  exact hkin.dim.trans (hc i hi info0 hinfo0)

/-- The loop is registered as one that is cut into blocks, or not, as `blocks` says. Where it is,
    the loops inside it go over the same dimension. -/
def Cuts (t : LoopTable) (blocks : Bool) (l : LoopParams) (body : Code) : Prop :=
  ∀ info, t.get? l.id = some info → info.split = blocks ∧ (blocks = true → body.Along t info.dim)

theorem Cuts.modify (hc : Cuts t blocks l c) (id : LoopId) (hf : ∀ i, (f i).Kin i) :
    Cuts (t.modify id f) blocks l c := by
  intro info hinfo
  obtain ⟨info0, hinfo0, hkin⟩ := LoopTable.kin_modify hf hinfo
  obtain ⟨hsplit, halong⟩ := hc info0 hinfo0
  refine ⟨hkin.split.trans hsplit, fun hblocks => ?_⟩
  rw [hkin.dim]
  exact (halong hblocks).modify id hf

/-- The loops inside a loop have changed. -/
theorem Cuts.inside (hc : Cuts t blocks l c) (h : Relabels t t' ids path c c' new)
    (hout : l.id ∉ c.names)
    (hsome : (t.get? l.id).isSome) : Cuts t' blocks l c' := by
  intro info hinfo
  rw [h.frame l.id hout hsome] at hinfo
  exact ⟨(hc info hinfo).1, fun hblocks => h.along ((hc info hinfo).2 hblocks)⟩

/-- The loops of the code are registered as `blocks` says. -/
def Blocked (t : LoopTable) (blocks : Expr → Bool) : Code → Prop
  | done => True
  | op _ rest => rest.Blocked t blocks
  | loop _ e body rest =>
    (∀ l, e.loop = some l → Cuts t (blocks e) l body) ∧ body.Blocked t blocks ∧
    rest.Blocked t blocks

/-- The table may change where the code has no loops. -/
theorem Blocked.congr {blocks : Expr → Bool} (hc : c.Blocked t blocks)
    (h : ∀ id ∈ c.names, t'.get? id = t.get? id) :
    c.Blocked t' blocks := by
  induction c with
  | done => trivial
  | op x rest ih => exact ih hc h
  | loop b e body rest ihbody ihrest =>
    simp only [names, mem_append] at h
    refine ⟨fun l hl info hinfo => ?_, ihbody hc.2.1 fun id hid => h id (.inr (.inl hid)),
      ihrest hc.2.2 fun id hid => h id (.inr (.inr hid))⟩
    rw [h l.id (.inl (by simp [hl]))] at hinfo
    obtain ⟨hsplit, halong⟩ := hc.1 l hl info hinfo
    exact ⟨hsplit, fun hblocks => (halong hblocks).congr fun id hid => h id (.inr (.inl hid))⟩

theorem Blocked.ofOps {blocks : Expr → Bool} (hc : c.Blocked t blocks) (xs : List Expr) :
    (ofOps xs c).Blocked t blocks := by
  induction xs with
  | nil => exact hc
  | cons x xs ih => exact ih

/-- In a table without loops that are cut into blocks, no loop of the code is. -/
theorem blocked_of_plain (h : t.Plain) (c : Code) : c.Blocked t fun _ => false := by
  induction c with
  | done => trivial
  | op x rest ih => exact ih
  | loop b e body rest ihbody ihrest =>
    exact ⟨fun l _ info hinfo => ⟨h.split_eq hinfo, fun hblocks => by cases hblocks⟩, ihbody, ihrest⟩

end Code

namespace Tails

variable {xs : List Expr} {dim : Amount}

/-! ## Scaling -/

/-- An expression that closes no loop is not scaled. -/
theorem Holds.scaleInner_other (h : Holds m k xs) (hx : x ∈ xs) (hkind : x.kind ≠ .loopEnd)
    (size : Amount) :
    Tails.scaleInner dim size x.id k = .ok () k := by
  unfold Tails.scaleInner
  rw [get_bind_run, h.lists.read x hx, if_neg hkind]
  rfl

namespace Stands

/-- One loop is scaled down. -/
theorem scaleInner (h : Stands m k pre post (.loop b e c .done))
    (hreg : (Code.loop b e c .done).Registered k.loops ids path) (hl : e.loop = some l)
    (hdim : ∀ info, k.loops.get? l.id = some info → info.dim = dim) (size : Amount) :
    ∃ (c' : Code) (k' : Kernel), Tails.scaleInner dim size e.id k = .ok () k' ∧
      Became m k k' ids path pre post (.loop b e c .done) c'
        (.loop b (e.scaledTo size) (c.narrowed m.config.fillTails size k.nextTensor).1 .done,
          (c.narrowed m.config.fillTails size k.nextTensor).2) := by
  have he : e ∈ pre ++ (Code.loop b e c .done).flatten ++ post := by simp [Code.flatten]
  have hscaled : e.scaledTo size = e.withParams (l.scaledTo size) := by
    rw [Expr.scaledTo, hl]
    rfl
  obtain ⟨info, hinfo⟩ := h.holds.loopInfo he h.nested.1.closes hl
  -- the marker and the table are scaled, then the body is narrowed
  obtain ⟨k1, hrun1, hk1, hnext1, hloops1⟩ :=
    (list_end pre post b e c ▸ h.holds).setParams hl (l.scaledTo size) rfl
  obtain ⟨k2, hrun2, hk2, hnext2, hloops2⟩ := hk1.modifyLoop l.id fun i =>
    { i with workAmount := size, increment := (l.scaledTo size).increment }
  rw [hloops1] at hloops2
  have h2 : Stands m k2 pre post (.loop b (e.withParams (l.scaledTo size)) c .done) :=
    ⟨list_end pre post b _ c ▸ hk2, h.nested.withParams h.holds.nodup _⟩
  have hown : Code.Relabels k.loops k2.loops ids path (.loop b e c .done)
      (.loop b (e.withParams (l.scaledTo size)) c .done) [] := by
    rw [hloops2]
    exact .modifyLoop hreg hl (l.scaledTo size) rfl (fun _ => ⟨rfl, rfl⟩) (fun _ => rfl) fun _ _ => rfl
  obtain ⟨c', k', hrun, h', hbody⟩ := h2.narrowBody size (hown.registered.inside rfl).1
  have hnext : k2.nextTensor = k.nextTensor := hnext2.trans hnext1
  rw [hscaled, ← hnext]
  refine ⟨_, k', ?_, h', .inLoop hown hnext hbody⟩
  have hbegin : Edit.ask (·.loopBeginOf (e.withParams (l.scaledTo size)).id) k2 = .ok b.id k2 :=
    Edit.ask_run_ok (h2.holds.lists.loopBeginOf (by simp [Code.flatten]) (by simp [Code.flatten]) h2.nested.1)
  unfold Tails.scaleInner
  rw [get_bind_run, h.holds.lists.read e he, if_pos h.nested.1.closes, bind_run_ok (h.holds.lists.ask_params he hl),
    bind_run_ok (Edit.ask_loopInfo hinfo), if_pos (hdim info hinfo)]
  exact (bind_run_ok hrun1).trans ((bind_run_ok hrun2).trans ((bind_run_ok hbegin).trans hrun))

/-- Every loop of the code is scaled down, inner loops first. -/
theorem scaleAll (h : Stands m k pre post c) (hreg : c.Registered k.loops ids path)
    (halong : c.Along k.loops dim)
    (size : Amount) :
    ∃ (c' : Code) (k' : Kernel), (c.flatten.map Expr.id).forM (Tails.scaleInner dim size) k = .ok ⟨⟩ k' ∧
      Became m k k' ids path pre post c c' (c.scaledTo m.config.fillTails size k.nextTensor) := by
  induction c generalizing pre post k ids path with
  | done => exact ⟨.done, k, rfl, .refl h hreg⟩
  | op x rest ih =>
    have hboth : ((Code.op x .done).append rest).Registered k.loops ids path := hreg
    have hskip : Tails.scaleInner dim size x.id k = .ok () k :=
      h.holds.scaleInner_other (by simp [Code.flatten]) (OpKind.ne_loopEnd_of_isMarker h.nested.1) size
    obtain ⟨new, hstands, hrestReg, hframe, hjoin⟩ := (Became.refl (of_append (c := .op x .done) h).1
      hboth.of_append.1).follow hboth h (Nat.le_refl _)
    obtain ⟨rest', k', hrun, hrest⟩ := ih hstands hrestReg (Code.Along.congr (c := rest) halong hframe)
    exact ⟨_, k', (bind_run_ok hskip).trans hrun, hjoin hrest⟩
  | loop b e body rest ihbody ihrest =>
    have hboth : ((Code.loop b e body .done).append rest).Registered k.loops ids path := hreg
    have hfirst := (of_append (c := .loop b e body .done) h).1
    have hfirstReg := hboth.of_append.1
    obtain ⟨-, ⟨l, hl, -⟩, -⟩ := hfirstReg.labelled
    have halongFirst : (Code.loop b e body .done).Along k.loops dim := fun i hi =>
      halong i (by simp only [Code.names, mem_append, not_mem_nil, or_false] at hi ⊢; tauto)
    have halongBody : body.Along k.loops dim := fun i hi => halong i (by simp [Code.names, hi])
    have halongRest : rest.Along k.loops dim := fun i hi => halong i (by simp [Code.names, hi])
    -- the opening marker is passed over, then the body is scaled
    have hskip : Tails.scaleInner dim size b.id k = .ok () k :=
      h.holds.scaleInner_other (by simp [Code.flatten]) (by rw [h.nested.1.opens]; decide) size
    obtain ⟨body', k1, hrun1, hbody'⟩ := ihbody hfirst.inside (hfirstReg.inside hl).1 halongBody
    have hloop := hbody'.loopBody hfirst hl hfirstReg
    obtain ⟨new1, hnew1⟩ := hloop.labels
    -- the loop is scaled
    obtain ⟨c2, k2, hrun2, hown⟩ := hloop.toStands.scaleInner hnew1.registered hl
      (fun info => hnew1.along halongFirst l.id (by simp [Code.names, hl]) info) size
    have hinner : k.nextTensor ≤ k1.nextTensor := hbody'.next ▸ body.le_scaledTo _ _ _
    have hle : k1.nextTensor ≤ k2.nextTensor := hown.next ▸ Code.le_narrowed _ _ _ _
    let inner := body.scaledTo m.config.fillTails size k.nextTensor
    let scaled := inner.1.narrowed m.config.fillTails size inner.2
    obtain ⟨hbare, hnext⟩ := Code.narrowed_congr m.config.fillTails size hbody'.bare inner.2
    rw [hbody'.next] at hown
    have hsplit := (hloop.trans hnew1 hown hinner).retarget (.loop b (e.scaledTo size) scaled.1 .done, scaled.2)
      (by rw [Code.bare_loop, Code.bare_loop, hbare]) hnext
    -- what follows is scaled
    obtain ⟨new, hstands, hrestReg, hframe, hjoin⟩ := hsplit.follow hboth h (Nat.le_trans hinner hle)
    obtain ⟨rest', k3, hrun3, hrest'⟩ := ihrest hstands hrestReg (halongRest.congr hframe)
    refine ⟨_, k3, ?_, hsplit.next ▸ hjoin hrest'⟩
    have hids : (Code.loop b e body rest).flatten.map Expr.id =
        b.id :: (body.flatten.map Expr.id ++ e.id :: rest.flatten.map Expr.id) := by simp [Code.flatten]
    rw [hids]
    refine (bind_run_ok hskip).trans ((congrFun forM_append k).trans ?_)
    exact (bind_run_ok hrun1).trans ((bind_run_ok hrun2).trans hrun3)

/-- The loops between the markers of a tail are scaled down. -/
theorem scaleInners (h : Stands m k (pre ++ [b]) (e :: post) c)
    (hreg : c.Registered k.loops ids path)
    (halong : c.Along k.loops dim) (id : LoopId) (size : Amount) :
    ∃ (c' : Code) (k' : Kernel), Tails.scaleInners ⟨some b.id, some e.id, id⟩ dim size k = .ok () k' ∧
      Became m k k' ids path (pre ++ [b]) (e :: post) c c' (c.scaledTo m.config.fillTails size k.nextTensor) := by
  obtain ⟨c', k', hrun, hbecame⟩ := h.scaleAll hreg halong size
  have hlists : k.Lists (pre ++ b :: (c.flatten ++ e :: post)) := by simpa using h.holds.lists
  have hwalk : Kernel.upTo (some e.id) (Kernel.behind b.id k.order) = (c.flatten.map Expr.id, true) := by
    have hnodup := hlists.nodup
    rw [map_append, map_cons, nodup_append] at hnodup
    have hinside := (nodup_cons.1 hnodup.2.1).2
    rw [map_append, map_cons] at hinside
    rw [hlists.behind, map_append, map_cons]
    exact Kernel.upTo_append hinside
  refine ⟨c', k', ?_, hbecame⟩
  unfold Tails.scaleInners
  simp only [get_bind_run, hwalk]
  exact (bind_run_ok hrun).trans rfl

/-- The loop between the markers of a tail is made to run once over `size` elements. Where it is cut
    into `blocks`, the loops inside it are scaled down before. -/
theorem shrinkTail (h : Stands m k pre post (.loop b e c .done)) (hl : e.loop = some l) {e0 : Expr}
    {l0 : LoopParams}
    (he0 : e0 ∈ pre ++ [e]) (hl0 : e0.loop = some l0) {offsets : List Amount}
    (hoffsets : offsets.length ≤ l.ptrIncrements.length) (id : LoopId) (size : Amount) (touches : Bool)
    (hreg : c.Registered k.loops ids path) (halong : blocks = true → c.Along k.loops dim) :
    ∃ (c' : Code) (k' : Kernel),
      let l' : LoopParams := { l with
        workAmount := size
        increment := size
        finalOffsets := offsets
        hasOuterLoop := l0.hasOuterLoop
        once := false }
      (do
        if blocks then Tails.scaleInners ⟨some b.id, some e.id, id⟩ dim size
        Tails.finishTail ⟨some b.id, some e.id, id⟩ e0.id size offsets touches : Edit Unit) k = .ok () k' ∧
      Stands m k' pre post (.loop b (e.withParams (l'.optimized m.config.evaluateOnce touches)) c' .done) ∧
      Recoded k k' ids path c c' (c.shrunk blocks m.config.fillTails size k.nextTensor) := by
  cases blocks with
  | false => exact h.finishTail hl he0 hl0 hoffsets id size touches hreg
  | true =>
    obtain ⟨c1, k1, hrun1, hscaled⟩ := h.inside.scaleInners hreg (halong rfl) id size
    obtain ⟨new, hnew⟩ := hscaled.labels
    obtain ⟨c', k', hrun, h', hev, hbare, hnext, new', hrelabels⟩ :=
      (hscaled.around h).finishTail hl he0 hl0 hoffsets id size touches hnew.registered
    obtain ⟨hbare', hnext'⟩ := Code.narrowed_congr m.config.fillTails size hscaled.bare k1.nextTensor
    rw [hscaled.next] at hbare hnext hbare' hnext'
    have hle : k.nextTensor ≤ k1.nextTensor := hscaled.next ▸ c.le_scaledTo _ _ _
    exact ⟨c', k', (bind_run_ok hrun1).trans hrun, h', hscaled.evolves.trans hev hle, hbare.trans hbare',
      hnext.trans hnext', _, hnew.trans hrelabels⟩

end Stands

end Tails

end KernelLoops
