import KernelLoops.Proofs.Sweeping
import KernelLoops.Proofs.TailFrames

set_option autoImplicit false

/-! # Where a loop and its tail leave an operand

A loop over `n` elements in chunks of `k` becomes a loop over the whole chunks, a tail over the
rest, or one behind the other. Whichever it is and whether or not one of them is evaluated once, an
operand stands at every chunk where single steps would bring it, and ends where single steps would
leave it. -/

namespace KernelLoops

open List

variable {k s : Kernel} {start : Amount} {changed force optimize : Bool} {e e' : ExprId}
  {operand : Int}
  {ends : List ExprId} {t : TensorId}

/-! ## Stepping through parameters -/

namespace LoopParams

/-- One operand is stepped through loops that follow each other. -/
def through (operand : Int) : List LoopParams → Amount → Except Failure Positions
  | [], start => .ok { bodies := [], final := start }
  | l :: ls, start => do
    let first ← l.positions operand start
    let rest ← through operand ls first.final
    return { bodies := first.bodies ++ rest.bodies, final := rest.final }

/-- Where an operand that moves by `step` for each element stands at the start of every chunk, the
    last of which may be smaller, and where it is left with the offset `offset`. -/
def chunks (l : LoopParams) (step offset start : Amount) : Positions :=
  { bodies := spaced start (step * l.increment) (l.workAmount / l.increment).trips ++
      if l.workAmount % l.increment = 0 then [] else [start + step * (l.workAmount - l.workAmount % l.increment)]
    final := start + step * l.workAmount + offset }

theorem through_singleton {l : LoopParams} {p : Positions} (h : l.positions operand start = .ok p) :
    through operand [l] start = .ok p := by
  rw [through, except_bind_ok h]
  show Except.ok ({ bodies := p.bodies ++ [], final := p.final } : Positions) = _
  rw [append_nil]

theorem through_pair {l l' : LoopParams} {p p' : Positions} (h : l.positions operand start = .ok p)
    (h' : l'.positions operand p.final = .ok p') :
    through operand [l, l'] start = .ok { bodies := p.bodies ++ p'.bodies, final := p'.final } := by
  rw [through, except_bind_ok h, except_bind_ok (through_singleton h')]
  rfl

variable {l l' : LoopParams} {i : Nat} {p f : Amount}

/-- An operand in a loop over whole chunks. -/
theorem positions_whole (hwork : 0 < l.workAmount) (hinc : 0 < l.increment)
    (hdiv : l.workAmount % l.increment = 0)
    (honce : l.once = false) (hp : l.ptrIncrements[i]? = some p) (hf : l.finalOffsets[i]? = some f) (start : Amount) :
    l.positions i start = .ok (l.chunks p f start) := by
  have hsum := Amount.eq_steps_add_mod (Int64.le_of_lt hwork) hinc
  rw [hdiv, Int64.add_zero] at hsum
  rw [positions_counted hinc honce hp hf, chunks, if_pos hdiv, append_nil]
  congr 2
  grind

theorem getElem?_absorbSteps {inc : Amount} {fs ps : List Amount} (hf : fs[i]? = some f)
    (hp : ps[i]? = some p) :
    (absorbSteps inc fs ps)[i]? = some (f + p * inc) := by
  induction fs generalizing ps i with
  | nil => cases hf
  | cons g fs ih =>
    cases ps with
    | nil => cases hp
    | cons q ps =>
      cases i with
      | zero =>
        cases hf
        cases hp
        rfl
      | succ i => exact ih hf hp

/-- The same operand where the loop has perhaps been evaluated once. -/
theorem positions_twin (h : l.Twin l') (hwork : 0 < l.workAmount) (hinc : 0 < l.increment)
    (hdiv : l.workAmount % l.increment = 0) (honce : l.once = false) (hp : l.ptrIncrements[i]? = some p)
    (hf : l.finalOffsets[i]? = some f) (start : Amount) : l'.positions i start = .ok (l.chunks p f start) := by
  rcases h with rfl | ⟨hsingle, -, rfl⟩
  · exact positions_whole hwork hinc hdiv honce hp hf start
  · have hcount : (l.workAmount / l.increment).trips = 1 := by
      rw [← hsingle.body, bodyCount, honce, if_neg Bool.false_ne_true, if_pos hinc]
    have hsum := Amount.eq_steps_add_mod (Int64.le_of_lt hwork) hinc
    rw [hdiv, Int64.add_zero, hcount] at hsum
    rw [positions_once rfl (getElem?_absorbSteps hf hp), chunks, if_pos hdiv, hcount]
    congr 2
    grind

/-- Evaluating a loop once keeps its moves if it is not done, or if what it no longer steps goes
    into the offsets. -/
theorem twin_optimized_of (hwork : 0 < l.workAmount) (hinc : 0 < l.increment)
    (hdiv : l.workAmount % l.increment = 0)
    (hlength : l.finalOffsets.length = l.ptrIncrements.length)
    (h : optimize = false ∨ l.hasOuterLoop = true ∨ force = true) : l.Twin (l.optimized optimize force) := by
  cases optimize with
  | false => exact .inl (optimized_false force l)
  | true =>
    refine twin_optimized (fun h => absurd hwork (h ▸ Int64.lt_irrefl)) hdiv (Int64.le_of_lt hwork) hinc hlength ?_
    rcases h with h | h | h
    · cases h
    · rw [h, Bool.true_or]
    · rw [h, Bool.or_true]

/-- The steps go where the position behind the loop matters. -/
theorem getElem?_finalOffsets_optimized (force : Bool) (hp : l.ptrIncrements[i]? = some p)
    (hf : l.finalOffsets[i]? = some f) (hruns : l.runsOnce true = true) :
    (l.optimized true force).finalOffsets[i]? =
      some (if l.hasOuterLoop || force then f + p * l.increment else f) := by
  rw [optimized, if_pos hruns]
  dsimp only
  split
  · exact getElem?_absorbSteps hf hp
  · exact hf

/-- An operand of a loop that runs its body at most once, and of the same loop evaluated once: they
    make the same moves if there is a body to run, and the step it would have made goes into the
    offset or is none. -/
theorem positions_optimized_eq_iff (force : Bool) (hwork : 0 ≤ l.workAmount) (hinc : 0 < l.increment)
    (honce : l.once = false) (hruns : l.runsOnce true = true) (hp : l.ptrIncrements[i]? = some p)
    (hf : l.finalOffsets[i]? = some f) (start : Amount) :
    (l.optimized true force).positions i start = l.positions i start ↔
      l.increment ≤ l.workAmount ∧ (l.hasOuterLoop = true ∨ force = true ∨ p * l.increment = 0) := by
  have hmarked : (l.optimized true force).once = true := by rw [optimized, if_pos hruns]
  rw [positions_once hmarked (getElem?_finalOffsets_optimized force hp hf hruns), positions_counted hinc honce hp hf]
  rcases Int64.lt_or_le l.workAmount l.increment with hless | hle
  · -- No body: evaluated once, the loop runs one that it did not run.
    rw [Amount.trips_div_of_lt hwork hless, spaced]
    constructor
    · intro h
      cases h
    · intro h
      exact absurd (Int64.lt_of_lt_of_le hless h.1) Int64.lt_irrefl
  · rw [Amount.trips_div_of_lt_double hinc hle (of_decide_eq_true (Bool.and_eq_true _ _ ▸ hruns).2), spaced, spaced]
    simp only [Except.ok.injEq, Positions.mk.injEq, true_and, hle]
    cases houter : l.hasOuterLoop <;> cases force <;> simp only [Bool.or_self, Bool.or_true, Bool.true_or] <;> grind

/-- Evaluating a loop once tells exactly whether it changes the loop, does so at most once, and
    keeps the moves of an operand exactly where the loop runs its body and the step it no longer
    makes is none or goes into the offset. -/
theorem evaluateOnce_keeps_positions (force : Bool) (hstatic : l.isStatic = true)
    (honce : l.once = false)
    (hinc : 1 ≤ l.increment) (hwork : 0 ≤ l.workAmount) (hlength : l.finalOffsets.length ≤ l.ptrIncrements.length) :
    ∃ changed l', evaluateOnce force l = .ok changed l' ∧ (changed = true ↔ l.workAmount < 2 * l.increment) ∧
      (changed = false → l' = l) ∧ (∀ again, evaluateOnce again l' = .ok false l') ∧
      ∀ i < l.finalOffsets.length, ∃ before after : Amount → Positions,
        (∀ start, l.positions i start = .ok (before start)) ∧ (∀ start, l'.positions i start = .ok (after start)) ∧
        ((∀ start, after start = before start) ↔ changed = false ∨ l.increment ≤ l.workAmount ∧
          (l.hasOuterLoop = true ∨ force = true ∨ l.ptrIncrements.getD i 0 * l.increment = 0)) := by
  have hinc' : 0 < l.increment := Int64.lt_of_lt_of_le (by decide) hinc
  have hruns : l.runsOnce true = decide (l.workAmount < 2 * l.increment) := by simp [runsOnce, honce, hstatic]
  refine ⟨_, _, evaluateOnce_run hlength force, ?_, ?_, ?_, ?_⟩
  · rw [hruns, decide_eq_true_eq]
  · intro hstays
    exact optimized_of_not_runsOnce hstays force
  · intro again
    have hdone : (l.optimized true force).runsOnce true = false := by
      unfold optimized
      split
      · rfl
      · next hstays => exact Bool.not_eq_true _ ▸ hstays
    rw [evaluateOnce_eq, hdone, optimized_of_not_runsOnce hdone]
    rfl
  · intro i hi
    obtain ⟨p, hp⟩ : ∃ p, l.ptrIncrements[i]? = some p := ⟨_, getElem?_eq_getElem (hi.trans_le hlength)⟩
    have hf := getElem?_eq_getElem hi
    rw [getD_eq_getElem?_getD, hp, Option.getD_some]
    obtain ⟨before, hbefore⟩ : ∃ before : Amount → Positions, ∀ start, l.positions i start = .ok (before start) :=
      ⟨_, positions_counted hinc' honce hp hf⟩
    cases hchanged : l.runsOnce true with
    | false =>
      rw [optimized_of_not_runsOnce hchanged]
      exact ⟨before, before, hbefore, hbefore, by simp⟩
    | true =>
      obtain ⟨after, hafter⟩ :
          ∃ after : Amount → Positions, ∀ start, (l.optimized true force).positions i start = .ok (after start) :=
        ⟨_, positions_once (by rw [optimized, if_pos hchanged])
          (getElem?_finalOffsets_optimized force hp hf hchanged)⟩
      have hsame (start : Amount) := positions_optimized_eq_iff force hwork hinc' honce hchanged hp hf start
      simp only [hbefore, hafter, Except.ok.injEq] at hsame
      exact ⟨before, after, hbefore, hafter, by simp [hsame]⟩

/-- A loop with one body that stands alone loses the step of its operand. -/
theorem evaluateOnce_keeps_positions_alone :
    ∃ l : LoopParams, l.workAmount = 12 ∧ ∃ l', evaluateOnce false l = .ok true l' ∧
      ¬∀ start, l'.positions (0 : Nat) start = l.positions (0 : Nat) start := by
  let l : LoopParams :=
    { id := 0, workAmount := 12, increment := 8, ptrIncrements := [1], finalOffsets := [0], elementSizes := [4],
      numEntries := 1, numExits := 0 }
  obtain ⟨changed, l', hrun, hchanged, -, -, hmoves⟩ := evaluateOnce_keeps_positions (l := l) false (by decide)
    (by decide) (by decide) (by decide) (by decide)
  obtain rfl : changed = true := hchanged.2 (by decide)
  obtain ⟨before, after, hbefore, hafter, hsame⟩ := hmoves 0 (by decide)
  refine ⟨l, rfl, l', hrun, fun h => ?_⟩
  refine absurd (hsame.1 fun start => ?_) (by decide)
  exact Except.ok.inj ((hafter start).symm.trans ((h start).trans (hbefore start)))

/-- The tail of a loop runs once over the rest. -/
theorem positions_tail {size : Amount} (hsize : 0 < size) (id : LoopId)
    (hlength : l.finalOffsets.length = l.ptrIncrements.length)
    (h : optimize = false ∨ l.hasOuterLoop = true ∨ force = true) (hp : l.ptrIncrements[i]? = some p)
    (hf : l.finalOffsets[i]? = some f) (start : Amount) :
    (({ l.tail size with id } : LoopParams).optimized optimize force).positions i start =
      .ok { bodies := [start], final := start + p * size + f } := by
  let t : LoopParams := { l.tail size with id }
  have hdiv : t.workAmount % t.increment = 0 := Int64.mod_self
  have hquot : t.workAmount / t.increment = 1 :=
    Int64.div_self.trans (if_neg fun hzero : size = 0 => absurd hsize (hzero ▸ Int64.lt_irrefl))
  rw [positions_twin (twin_optimized_of (l := t) hsize hsize hdiv hlength h) hsize hsize hdiv rfl hp hf start, chunks,
    if_pos hdiv, hquot]
  rfl

/-- The loops that a loop is split into: the whole chunks, the rest, or both. The tail behind whole
    chunks has a name of its own. -/
def parts (optimize touches : Bool) (id : LoopId) (l : LoopParams) : List LoopParams :=
  let size := l.workAmount % l.increment
  if size = 0 then [l.optimized optimize touches]
  else if l.workAmount < l.increment then [(l.tail size).optimized optimize touches]
  else [(l.shortened size).optimized optimize true, ({ l.tail size with id } : LoopParams).optimized optimize touches]

/-- The loops that a loop is split into take an operand where the loop would have taken it. -/
theorem through_parts {touches : Bool} (hwork : 0 < l.workAmount) (hinc : 0 < l.increment)
    (honce : l.once = false)
    (hlength : l.finalOffsets.length = l.ptrIncrements.length)
    (h : optimize = false ∨ l.hasOuterLoop = true ∨ touches = true) (hp : l.ptrIncrements[i]? = some p)
    (hf : l.finalOffsets[i]? = some f) (id : LoopId) (start : Amount) :
    through i (l.parts optimize touches id) start = .ok (l.chunks p f start) := by
  unfold parts
  dsimp only
  split
  · next hdiv =>
    have htwin := twin_optimized_of hwork hinc hdiv hlength h
    exact through_singleton (positions_twin htwin hwork hinc hdiv honce hp hf start)
  · next hrest =>
    have hpos := (Amount.mod_pos (Int64.le_of_lt hwork) hinc hrest).1
    split
    · next hless =>
      have hmod : l.workAmount % l.increment = l.workAmount := Amount.mod_of_lt (Int64.le_of_lt hwork) hless
      have hquot : (l.workAmount / l.increment).trips = 0 := Amount.trips_div_of_lt (Int64.le_of_lt hwork) hless
      rw [hmod]
      refine (through_singleton (positions_tail hwork l.id hlength h hp hf start)).trans ?_
      rw [chunks, if_neg hrest, hmod, hquot, Int64.sub_self, Int64.mul_zero, Int64.add_zero]
      rfl
    · next hless =>
      have hle : l.increment ≤ l.workAmount := Int64.not_lt.1 hless
      let v : LoopParams := l.shortened (l.workAmount % l.increment)
      have hdiv : v.workAmount % v.increment = 0 := Amount.sub_mod_mod (Int64.le_of_lt hwork) hinc
      have hquot : v.workAmount / v.increment = l.workAmount / l.increment :=
        Amount.sub_mod_div (Int64.le_of_lt hwork) hinc
      have hvwork : 0 < v.workAmount := Amount.sub_mod_pos hinc hle
      have hvlength : v.finalOffsets.length = v.ptrIncrements.length := (length_map _).trans hlength
      have hvf : v.finalOffsets[i]? = some 0 := by
        show (l.finalOffsets.map fun _ => 0)[i]? = some 0
        rw [getElem?_map, hf]
        rfl
      have htwin : v.Twin (v.optimized optimize true) := twin_optimized_of hvwork hinc hdiv hvlength (.inr (.inr rfl))
      have hfirst := positions_twin htwin hvwork hinc hdiv honce hp hvf start
      refine (through_pair hfirst (positions_tail hpos id hlength h hp hf _)).trans ?_
      rw [chunks, chunks, if_pos hdiv, if_neg hrest, append_nil, hquot, Int64.add_zero]
      have hsum : ∀ size : Amount,
          start + p * (l.workAmount - size) + p * size + f = start + p * l.workAmount + f := fun _ => by grind
      rw [← hsum (l.workAmount % l.increment)]
      rfl

end LoopParams

/-! ## What one loop is split into -/

/-- The closing marker `e'` is new and in the loops that `e` is in, and nothing of `k` has come
    between the two. -/
structure Kernel.TailBehind (k k' : Kernel) (e e' : ExprId) : Prop where
  nodup : k'.order.Nodup
  closes : (k'.expr e').kind = .loopEnd
  tags : (k'.expr e').loopIds = (k.expr e).loopIds
  new : k.exprs.size ≤ e'
  behind : Sublist [e, e'] k'.order
  around : ∀ i < k.exprs.size, Sublist [i, e'] k'.order → i = e ∨ Sublist [i, e] k'.order

/-- The closing markers by which a closing marker of `k` is replaced in `k'`: itself, and that of a
    tail behind it. -/
inductive Kernel.Replaced (k k' : Kernel) (e : ExprId) : List ExprId → Prop
  | alone : Replaced k k' e [e]
  | tailed {e' : ExprId} (h : k.TailBehind k' e e') : Replaced k k' e [e, e']

namespace Tails

open Kernel (Framed)

/-- The copy of a loop is a tail behind it. -/
theorem Duplicated.tailBehind {s' : Kernel} {pre init post : List Expr} {D : Expr}
    {table : List (TensorId × Tensor)}
    {copy : Expr → Expr} (h : Duplicated s s' pre (init ++ [D]) post table copy) (hkind : D.kind = .loopEnd)
    (htags : (copy D).loopIds = D.loopIds) : s.TailBehind s' D.id (copy D).id := by
  have hD : D ∈ init ++ [D] := mem_append_right _ mem_cons_self
  have hread : s'.expr (copy D).id = copy D := (h.image hD).1
  have hnodup : s'.order.Nodup := h.after.order ▸ h.after.nodup
  have horder : s'.order = ((pre ++ init).map Expr.id ++ (D.id :: ((init ++ [D]).map copy).map Expr.id)) ++
      post.map Expr.id := by
    rw [h.after.order]
    simp
  refine {
    nodup := hnodup
    closes := by rw [hread, h.copied.kind hD, hkind]
    tags := by rw [hread, htags, (h.source hD).1]
    new := h.new D hD
    behind := ?_
    around := fun i hi hbefore => ?_ }
  · rw [horder]
    refine Sublist.trans ?_ ((sublist_append_right _ _).trans (sublist_append_left _ _))
    exact (singleton_sublist.2 (mem_map_of_mem (mem_map_of_mem hD))).cons_cons D.id
  · rw [horder] at hbefore hnodup
    have hmem : (copy D).id ∈ (pre ++ init).map Expr.id ++ (D.id :: ((init ++ [D]).map copy).map Expr.id) := by simp
    rcases mem_append.1 (mem_left_of_pair_sublist hbefore hnodup hmem) with hu | hu
    · refine .inr (Sublist.trans ?_ (horder ▸ sublist_append_left _ _))
      exact (singleton_sublist.2 hu).append (singleton_sublist.2 mem_cons_self)
    · rcases mem_cons.1 hu with rfl | hu
      · exact .inl rfl
      · obtain ⟨y, hy, rfl⟩ := mem_map.1 hu
        obtain ⟨x, hx, rfl⟩ := mem_map.1 hy
        exact absurd hi (Nat.not_lt.2 (h.new x hx))

/-- A tail stays behind its loop. -/
theorem TailBehind.framed {u : Kernel} {still : ExprId → Prop} (h : k.TailBehind s e e')
    (hsize : k.exprs.size ≤ s.exprs.size) (hu : Framed still s u) : k.TailBehind u e e' := by
  have hmade : e' < s.exprs.size := Kernel.lt_size_of_marker (by rw [h.closes]; rfl)
  refine {
    nodup := hu.lists.order ▸ hu.lists.nodup
    closes := (hu.kinds e' hmade).trans h.closes
    tags := (hu.tags e' hmade).trans h.tags
    new := h.new
    behind := h.behind.trans hu.order
    around := fun i hi hbefore => ?_ }
  have hbefore' : Sublist [i, e'] s.order := by
    refine hu.sublist hbefore fun w hw => ?_
    rcases mem_pair.1 hw with rfl | rfl
    · exact (hu.fresh w (hbefore.subset mem_cons_self)).resolve_right
        (Nat.not_le.2 (Nat.lt_of_lt_of_le hi hsize))
    · exact h.behind.subset (mem_pair.2 (.inr rfl))
  exact (h.around i hi hbefore').imp_right fun hie => hie.trans hu.order

theorem TailBehind.not_between {i : ExprId} (h : k.TailBehind s e e') (hi : i < k.exprs.size) :
    ¬Sublist [e, i, e'] s.order := by
  intro hbetween
  have hpair : Sublist [e, i] s.order :=
    (Sublist.cons_cons e (Sublist.cons_cons i (nil_sublist [e']))).trans hbetween
  rcases h.around i hi ((sublist_cons_self e [i, e']).trans hbetween) with rfl | hbefore
  · exact (nodup_cons.1 (h.nodup.sublist hpair)).1 mem_cons_self
  · exact not_pair_sublist h.nodup hpair hbefore

variable {s' : Kernel} {l : LoopParams} {size : Amount} {offsets : List Amount} {touches : Bool}

/-- A loop that becomes the tail. -/
theorem buildTail_inPlace (hs : s.Lists s.sequence) (he : e ∈ s.order)
    (hl : (s.expr e).loop = some l)
    (hrun : buildTail e false size offsets touches s = .ok ⟨⟩ s') :
    (s'.expr e).loop = some (({ l with
      workAmount := size
      increment := size
      finalOffsets := offsets
      once := false } : LoopParams).optimized s.config.evaluateOnce touches) := by
  obtain ⟨b, l', info, tail, s1, b', e', s2, lt, ld, hb, hl', hinfo, htail, hbegin, hend, hwork, hlt, hld, hopt⟩ :=
    of_buildTail_ok hrun
  cases htail
  cases hbegin
  cases hend
  have hmade : e < s.exprs.size := hs.lt_size he
  have hk : Framed (fun i => i = e) s s2 := by
    refine hwork _ s (.refl hs) fun _ i hi hie => ?_
    -- a marker does not lie before itself
    have hnodup : s.order.Nodup := hs.order ▸ hs.nodup
    rw [hie] at hi
    exact absurd mem_cons_self (nodup_cons.1 (nodup_cons.1 (hnodup.sublist hi)).2).1
  have hsame := hk.loop e hmade rfl
  rw [hlt, hl] at hsame
  cases hsame
  cases hlt.symm.trans hld
  have hmade' : e < s2.exprs.size := Nat.lt_of_lt_of_le hmade hk.size
  have hfinal := (of_optimize_ok (loop_setParams hmade' _) (by simpa [setParams] using hmade') hopt).1
  rw [show (setParams e _ s2).config = s.config from hk.config] at hfinal
  exact hfinal

/-- A loop that gets a tail behind it. -/
theorem buildTail_behind (hs : s.Lists s.sequence) (he : e ∈ s.order)
    (hkind : (s.expr e).kind = .loopEnd)
    (hl : (s.expr e).loop = some l) (hrun : buildTail e true size offsets touches s = .ok ⟨⟩ s') :
    ∃ e' id, s.TailBehind s' e e' ∧ (s'.expr e).loop = some l ∧ (s'.expr e').loop = some (({ l with
      id
      workAmount := size
      increment := size
      finalOffsets := offsets
      once := false } : LoopParams).optimized s.config.evaluateOnce touches) := by
  obtain ⟨b, l', info, tail, s1, b', e', s2, lt, ld, hb, hl', hinfo, htail, hbegin, hend, hwork, hlt, hld, hopt⟩ :=
    of_buildTail_ok hrun
  obtain ⟨hbmem, hbne⟩ := mem_order_of_loopBeginOf hs hb
  obtain ⟨pre, B, mid, D, post, table, copy, rfl, rfl, hdup, hbegin', hend', htags⟩ :=
    exists_duplicated hs hbmem he hbne htail (by rw [hend]; exact Option.some_ne_none _)
  cases hbegin.symm.trans hbegin'
  cases hend.symm.trans hend'
  have hD : D ∈ B :: (mid ++ [D]) := by simp
  obtain ⟨hread, hmade⟩ := hdup.source hD
  obtain ⟨hcopy, hcopymade⟩ := hdup.image hD
  have hne : D.id ≠ (copy D).id := Nat.ne_of_lt (Nat.lt_of_lt_of_le hmade (hdup.new D hD))
  have hnodup : s1.order.Nodup := hdup.after.order ▸ hdup.after.nodup
  have hk : Framed (fun i => i = D.id ∨ i = (copy D).id) s1 s2 := by
    refine hwork _ s1 (.refl hdup.after.self) fun _ i hi hstill => ?_
    rcases hstill with rfl | rfl
    · exact absurd (hdup.inside hi) (Nat.not_le.2 hmade)
    · exact absurd mem_cons_self (nodup_cons.1 (nodup_cons.1 (hnodup.sublist hi)).2).1
  obtain ⟨mapping, hmapping⟩ := hdup.params
  have hld' := hk.loop D.id (Nat.lt_of_lt_of_le hmade hdup.size) (.inl rfl)
  rw [hld, hdup.old D.id hmade, hl] at hld'
  cases hld'
  have hlt' := hk.loop (copy D).id hcopymade (.inr rfl)
  rw [hread] at hl hkind
  rw [hlt, hcopy, hmapping D hD, hl] at hlt'
  cases hlt'
  have hcopymade2 : (copy D).id < s2.exprs.size := Nat.lt_of_lt_of_le hcopymade hk.size
  obtain ⟨hfinal, hrest⟩ := of_optimize_ok (loop_setParams hcopymade2 _) (by simpa [setParams] using hcopymade2) hopt
  rw [show (setParams (copy D).id _ s2).config = s.config from hk.config.trans hdup.config] at hfinal
  have hk' : Framed (fun i => i = D.id) s1 s' := by
    have hother : (copy D).id = D.id → s1.exprs.size ≤ (copy D).id := fun heq => absurd heq (Ne.symm hne)
    refine (keeps_optimize hother touches).of_ok ?_ hopt
    exact (hk.imp fun _ hi => .inl hi).modifyExpr (i :=
      (copy D).id) rfl rfl rfl rfl rfl fun heq => absurd heq (Ne.symm hne)
  have htail' : s.TailBehind s1 D.id (copy D).id :=
    Duplicated.tailBehind (show Duplicated s s1 pre ((B :: mid) ++ [D]) post table copy from hdup) hkind htags
  refine ⟨(copy D).id, _, TailBehind.framed htail' hdup.size hk', ?_, hfinal⟩
  rw [hrest D.id hne, expr_setParams_of_ne hne, hld]

/-- A marker that replaces another is that marker or a new one, and what was there before it came
    before both. -/
theorem Replaced.mem (h : k.Replaced s e ends) {i : ExprId} (hi : i ∈ ends) :
    i = e ∨ i ∈ s.order ∧ k.exprs.size ≤ i ∧
      ∀ j < k.exprs.size, Sublist [j, i] s.order → j = e ∨ Sublist [j, e] s.order := by
  cases h with
  | alone => exact .inl (mem_singleton.1 hi)
  | tailed h =>
    rcases mem_pair.1 hi with rfl | rfl
    · exact .inl rfl
    · exact .inr ⟨h.behind.subset (mem_pair.2 (.inr rfl)), h.new, h.around⟩

theorem Replaced.mono {k1 : Kernel} (h : k1.Replaced s e ends) (hsize : k.exprs.size ≤ k1.exprs.size)
    (htags : (k1.expr e).loopIds = (k.expr e).loopIds) : k.Replaced s e ends := by
  cases h with
  | alone => exact .alone
  | tailed h =>
    exact .tailed { h with
      tags := h.tags.trans htags
      new := Nat.le_trans hsize h.new
      around := fun i hi => h.around i (Nat.lt_of_lt_of_le hi hsize) }

/-- The markers that replace a closing marker carry the parameters of the loops that its loop is
    split into. -/
theorem split_parts (hs : s.Lists s.sequence) (he : e ∈ s.order) (hkind : (s.expr e).kind = .loopEnd)
    (hl : (s.expr e).loop = some l) (honce : l.once = false) (hstatic : l.isStatic = true) (hwork : 0 < l.workAmount)
    (hinc : 0 < l.increment) (hrun : split e s = .ok changed s') :
    ∃ ends id touches, touchesBuffer s (s.expr e) l = .ok touches ∧ s.Replaced s' e ends ∧
      ends.map (fun i => (s'.expr i).loop) = (l.parts s.config.evaluateOnce touches id).map some := by
  have hne : l.workAmount ≠ 0 := fun hzero => absurd hwork (hzero ▸ Int64.lt_irrefl)
  have hincne : l.increment ≠ 0 := fun hzero => absurd hinc (hzero ▸ Int64.lt_irrefl)
  have hmade : e < s.exprs.size := Kernel.lt_size_of_marker (by rw [hkind]; rfl)
  obtain ⟨l', hl', hcases⟩ := of_split_ok hrun
  cases hl.symm.trans hl'
  rcases hcases with ⟨hstays, -⟩ | ⟨size, touches, s1, -, hsize, htouches, hvector, htail⟩
  · rw [honce, hstatic, decide_eq_false hne] at hstays
    cases hstays
  rw [remainder, if_neg hincne] at hsize
  cases hsize
  unfold LoopParams.parts
  dsimp only
  by_cases hrest : l.workAmount % l.increment = 0
  · -- whole chunks only
    rw [if_neg (not_not.2 hrest)] at htail
    subst htail
    have hle : l.workAmount ≥ l.increment := by
      refine Int64.not_lt.1 fun hless => hne ?_
      rw [← Amount.mod_of_lt (Int64.le_of_lt hwork) hless, hrest]
    rw [if_pos hle] at hvector
    have hfinal := of_buildVector_ok hl hmade hvector
    rw [if_pos hrest] at hfinal
    refine ⟨[e], 0, touches, htouches, .alone, ?_⟩
    rw [if_pos hrest, map_singleton, map_singleton, hfinal]
  rw [if_pos hrest] at htail
  by_cases hless : l.workAmount < l.increment
  · -- the loop becomes the tail
    have hnot : ¬l.workAmount ≥ l.increment := Int64.not_le.2 hless
    rw [if_neg hnot] at hvector
    rw [decide_eq_false hnot] at htail
    subst hvector
    have hfinal := buildTail_inPlace hs he hl htail
    refine ⟨[e], 0, touches, htouches, .alone, ?_⟩
    rw [if_neg hrest, if_pos hless, map_singleton, map_singleton, hfinal]
    rfl
  · -- a tail behind the whole chunks
    have hle : l.workAmount ≥ l.increment := Int64.not_lt.1 hless
    rw [if_pos hle] at hvector
    rw [decide_eq_true hle] at htail
    have hfirst := of_buildVector_ok hl hmade hvector
    rw [if_neg hrest] at hfirst
    have hstep : Framed (fun i => i ≠ e) s s1 :=
      (keeps_buildVector (fun hself => absurd rfl hself) l _ touches).of_ok (.refl hs) hvector
    obtain ⟨e', id, hbehind, hvec, hlast⟩ := buildTail_behind hstep.lists (hstep.order.subset he)
      ((hstep.kinds e hmade).trans hkind) hfirst htail
    have hparams := congrArg (fun t : LoopParams => { t with id })
      (LoopParams.tail_shortened s.config.evaluateOnce true (l.workAmount % l.increment) l)
    rw [hstep.config] at hlast
    refine ⟨[e, e'], id, touches, htouches, Replaced.mono (.tailed hbehind) hstep.size (hstep.tags e hmade), ?_⟩
    rw [if_neg hrest, if_neg hless, map_cons, map_singleton, hvec, hlast]
    exact congrArg (fun t : LoopParams => [some ((l.shortened _).optimized s.config.evaluateOnce true),
      some (t.optimized s.config.evaluateOnce touches)]) hparams

/-! ## Splitting every loop -/

theorem anyCountM_mono {p q : Int → Except Failure Bool}
    (hpq : ∀ i, p i = .ok true → q i = .ok true) {start : Int} {n : Nat}
    {r : Bool} (hp : anyCountM start n p = .ok true) (hq : anyCountM start n q = .ok r) : r = true := by
  induction n generalizing start with
  | zero => cases hp
  | succ n ih =>
    rw [anyCountM] at hp hq
    obtain ⟨x, hx, hp⟩ := of_except_bind_ok hp
    obtain ⟨y, hy, hq⟩ := of_except_bind_ok hq
    cases x with
    | true =>
      cases (hpq start hx).symm.trans hy
      cases hq
      rfl
    | false =>
      cases y with
      | true =>
        cases hq
        rfl
      | false => exact ih hp hq

section Framed

variable {still : ExprId → Prop}

/-- A tensor that a buffer makes is still made by one. -/
theorem Framed.any_producer? (h : Framed still k s)
    (ht : ((k.producer? t).any fun p => p.kind = .buffer) = true) :
    ((s.producer? t).any fun p => p.kind = .buffer) = true := by
  obtain ⟨more, hmore⟩ := Kernel.Framed.producers_of_prefix h.produced t
  cases hp : k.producers t with
  | nil =>
    rw [Kernel.producer?, hp] at ht
    cases ht
  | cons p ps =>
    rw [Kernel.producer?, hp] at ht
    have hkind : (k.expr p.expr).kind = .buffer := of_decide_eq_true ht
    have hmade : p.expr < k.exprs.size := Kernel.lt_size_of_kind_ne (by rw [hkind]; decide)
    rw [Kernel.producer?, ← hmore, hp]
    exact decide_eq_true ((h.kinds p.expr hmade).trans hkind)

/-- A tensor that goes into a buffer still does. -/
theorem Framed.any_consumers (h : Framed still k s) (hk : k.Lists k.sequence)
    (ht : ((k.consumers t).any fun p => (k.expr p.expr).kind = .buffer) = true) :
    ((s.consumers t).any fun p => (s.expr p.expr).kind = .buffer) = true := by
  obtain ⟨p, hp, hkind⟩ := any_eq_true.1 ht
  obtain ⟨x, hx, hpx, hside, u, hu, htu⟩ := hk.mem_consumers.1 hp
  have hkind' : (k.expr p.expr).kind = .buffer := of_decide_eq_true hkind
  have hmade : p.expr < k.exprs.size := Kernel.lt_size_of_kind_ne (by rw [hkind']; decide)
  have hmem : s.expr p.expr ∈ s.sequence :=
    mem_map_of_mem (h.order.subset (hpx ▸ hk.mem_order.2 ⟨x, hx, rfl⟩))
  refine any_eq_true.2 ⟨p, h.lists.mem_consumers.2 ⟨s.expr p.expr, hmem, ?_, hside, u, ?_, htu⟩, ?_⟩
  · obtain ⟨y, hy, hyid⟩ := h.lists.mem_order.1 (h.order.subset (hpx ▸ hk.mem_order.2 ⟨x, hx, rfl⟩))
    rw [← hyid, h.lists.read y hy]
  · rw [h.inputs p.expr hmade (by rw [hkind']; decide), hpx, hk.read x hx, hu]
  · exact decide_eq_true ((h.kinds p.expr hmade).trans hkind')

/-- A loop that has an operand in a buffer still has it there. -/
theorem Framed.touchesBuffer (h : Framed still k s) (hk : k.Lists k.sequence) {x y : Expr}
    (hin : y.inputs = x.inputs)
    (hx : Tails.touchesBuffer k x l = .ok true) (hy : Tails.touchesBuffer s y l = .ok touches) : touches = true := by
  have hinput : ∀ i, y.input i = x.input i := fun i => by rw [Expr.input, Expr.input, hin]
  unfold Tails.touchesBuffer at hx hy
  simp only [hinput] at hy
  obtain ⟨entry, hentry, hx⟩ := of_except_bind_ok hx
  obtain ⟨entry', hentry', hy⟩ := of_except_bind_ok hy
  have hfirst : entry = true → entry' = true := by
    rintro rfl
    refine anyCountM_mono (fun i hi => ?_) hentry hentry'
    obtain ⟨t, ht, hany⟩ := of_except_bind_ok hi
    rw [except_bind_ok ht]
    exact congrArg Except.ok (Framed.any_producer? h (Except.ok.inj hany))
  cases entry' with
  | true =>
    cases hy
    rfl
  | false =>
    cases entry with
    | true => cases hfirst rfl
    | false =>
      refine anyCountM_mono (fun i hi => ?_) hx hy
      obtain ⟨t, ht, hany⟩ := of_except_bind_ok hi
      rw [except_bind_ok ht]
      exact congrArg Except.ok (Framed.any_consumers h hk (Except.ok.inj hany))

/-- Splitting the loops that end at the markers of a list, one after the other, leaves alone what is
    not inside a split loop among them. -/
theorem Framed.visits {ds : List ExprId} (hk : k.Lists k.sequence)
    (h : Framed (fun i => still i ∨ i ∈ ds) k s)
    (hds : Sublist ds k.order) (hself : ∀ d ∈ ds, ¬still d) (hmem : ∀ i, still i → i ∈ k.order)
    (hinside : ∀ d ∈ ds, ∀ b, k.loopBeginOf d = .ok b → k.Unsplit d ∨ ∀ i, still i → ¬Sublist [b, i, d] k.order)
    {changed' : Bool} (hrun : ds.foldlM visit changed s = .ok changed' s') : Framed still k s' := by
  induction ds generalizing s changed with
  | nil =>
    cases hrun
    exact h.imp fun _ hi => .inl hi
  | cons d ds ih =>
    rw [foldlM_cons] at hrun
    obtain ⟨changed1, s1, hvisit, hrun⟩ := of_bind_run_ok hrun
    have hnodup : k.order.Nodup := hk.order ▸ hk.nodup
    have hd : d ∈ k.order := hds.subset mem_cons_self
    have hrest : Sublist ds k.order := (sublist_cons_self d ds).trans hds
    have hless : Framed (fun i => still i ∨ i ∈ ds) k s := h.imp fun i hi => hi.imp_right (mem_cons_of_mem d)
    refine ih ?_ hrest (fun c hc => hself c (mem_cons_of_mem d hc)) (fun c hc => hinside c (mem_cons_of_mem d hc))
      hrun
    unfold visit at hvisit
    rw [get_bind_run] at hvisit
    split at hvisit
    · cases hvisit
      exact hless
    · obtain ⟨changed2, s2, hsplit, hvisit⟩ := of_bind_run_ok hvisit
      cases hvisit
      have hnot : d ∉ ds := (nodup_cons.1 (hnodup.sublist hds)).1
      refine Framed.split hless (h.order.subset hd) (fun hself' => hself'.elim (hself d mem_cons_self) hnot)
        (fun b hb => ?_) hsplit
      have hb' := h.of_loopBeginOf hk hd hb
      refine (hinside d mem_cons_self b hb').imp (fun hunsplit => ?_) fun hfree i hi hstill => ?_
      · exact h.unsplit (hk.lt_size hd) (.inr mem_cons_self) hunsplit
      · exfalso
        have hi' : i ∈ k.order := hstill.elim (hmem i) fun hi' => hrest.subset hi'
        have hbefore : Sublist [b, i, d] k.order :=
          h.sublist hi (by simpa using ⟨(mem_order_of_loopBeginOf hk hb').1, hi', hd⟩)
        rcases hstill with hstill | hlater
        · exact hfree i hstill hbefore
        · -- what is visited later does not come before the marker
          have hdi : Sublist [d, i] k.order := ((singleton_sublist.2 hlater).cons_cons d).trans hds
          exact not_pair_sublist hnodup hdi ((sublist_cons_self b [i, d]).trans hbefore)

end Framed

section Run

variable {m k' : Kernel}

/-- What replaces a closing marker while all loops are split. Nothing is done at it before its turn;
    afterwards only a split loop around it would change it again. -/
theorem run_parts (hm : m.Lists m.sequence) (he : e ∈ m.order) (hkind : (m.expr e).kind = .loopEnd)
    (hl : (m.expr e).loop = some l) (honce : l.once = false) (hstatic : l.isStatic = true) (hwork : 0 < l.workAmount)
    (hinc : 0 < l.increment)
    (hunsplit : ∀ b d, m.loopBeginOf d = .ok b → Sublist [b, e, d] m.order → m.Unsplit d)
    (hrun : run m = .ok changed k') :
    ∃ ends id touches, m.Replaced k' e ends ∧
      ends.map (fun i => (k'.expr i).loop) = (l.parts m.config.evaluateOnce touches id).map some ∧
      (touchesBuffer m (m.expr e) l = .ok true → touches = true) := by
  have hnodup : m.order.Nodup := hm.order ▸ hm.nodup
  have hmade : e < m.exprs.size := Kernel.lt_size_of_marker (by rw [hkind]; rfl)
  obtain ⟨before, after, horder⟩ := append_of_mem he
  unfold run at hrun
  rw [get_bind_run, horder, foldlM_append] at hrun
  obtain ⟨changed1, s1, hbefore, hrun⟩ := of_bind_run_ok hrun
  rw [foldlM_cons] at hrun
  obtain ⟨changed2, s2, hvisit, hafter⟩ := of_bind_run_ok hrun
  have hlater : ∀ d ∈ before, ∀ i ∈ e :: after, Sublist [d, i] m.order := fun d hd i hi => by
    rw [horder]
    exact (singleton_sublist.2 hd).append (singleton_sublist.2 hi)
  -- before its turn
  have h1 : Framed (fun i => i ∈ e :: after) m s1 := by
    refine Framed.visits hm (.refl hm) (horder ▸ sublist_append_left before _) (fun d hd hmem => ?_) (fun i hi => ?_)
      (fun d hd b _ => .inr fun i hi hins => ?_) hbefore
    · exact disjoint_of_nodup_append (horder ▸ hnodup) hd hmem
    · rw [horder]
      exact mem_append_right _ hi
    · exact not_pair_sublist hnodup (hlater d hd i hi) ((sublist_cons_self b [i, d]).trans hins)
  have he1 : e ∈ s1.order := h1.order.subset he
  have hkind1 : (s1.expr e).kind = .loopEnd := (h1.kinds e hmade).trans hkind
  have hinputs1 : (s1.expr e).inputs = (m.expr e).inputs := h1.inputs e hmade (by rw [hkind]; decide)
  -- its turn
  unfold visit at hvisit
  rw [get_bind_run, if_neg (not_not.2 hkind1)] at hvisit
  obtain ⟨changed3, s3, hsplit, hvisit⟩ := of_bind_run_ok hvisit
  cases hvisit
  obtain ⟨ends, id, touches, htouches, hends, hparts⟩ := split_parts h1.lists he1 hkind1
    ((h1.loop e hmade mem_cons_self).trans hl) honce hstatic hwork hinc hsplit
  replace hends : m.Replaced s2 e ends := Replaced.mono hends h1.size (h1.tags e hmade)
  have hlast : ∀ i ∈ after, Sublist [e, i] m.order := fun i hi => by
    rw [horder]
    exact ((singleton_sublist.2 hi).cons_cons e).trans (sublist_append_right before _)
  have hnot : e ∉ after := (nodup_cons.1 (nodup_append.1 (horder ▸ hnodup)).2.1).1
  have h2 : Framed (fun i => i ∈ after) m s2 := by
    refine Framed.split (h1.imp fun i hi => mem_cons_of_mem e hi) he1 hnot (fun b _ => .inr fun i hins hi => ?_) hsplit
    exact absurd ((sublist_cons_self b [i, e]).trans hins)
      (not_pair_sublist (h1.lists.order ▸ h1.lists.nodup) ((hlast i hi).trans h1.order))
  -- after its turn
  have he2 : e ∈ s2.order := h2.order.subset he
  have hnodup2 : s2.order.Nodup := h2.lists.order ▸ h2.lists.nodup
  have hmem2 : ∀ i ∈ ends, i ∈ s2.order := fun i hi => by
    rcases Replaced.mem hends hi with rfl | ⟨hi, -⟩
    · exact he2
    · exact hi
  have h3 : Framed (fun i => i ∈ ends) s2 k' := by
    have hafter2 : Sublist after s2.order := by
      refine Sublist.trans ?_ h2.order
      rw [horder]
      exact (sublist_cons_self e after).trans (sublist_append_right before _)
    have hmade' : ∀ d ∈ after, d < m.exprs.size := fun d hd =>
      hm.lt_size ((hlast d hd).subset (mem_pair.2 (.inr rfl)))
    refine Framed.visits h2.lists (.refl h2.lists) hafter2 (fun d hd hend => ?_) hmem2
      (fun d hd b hb => ?_) hafter
    · rcases Replaced.mem hends hend with rfl | ⟨-, hnew, -⟩
      · exact hnot hd
      · exact absurd (hmade' d hd) (Nat.not_lt.2 hnew)
    · have hdmem : d ∈ m.order := (hlast d hd).subset (mem_pair.2 (.inr rfl))
      have hb' := h2.of_loopBeginOf hm hdmem hb
      obtain ⟨hbmem, -⟩ := mem_order_of_loopBeginOf hm hb'
      by_cases hu : m.Unsplit d
      · exact .inl (h2.unsplit (hmade' d hd) hd hu)
      · refine .inr fun i hi hins => hu (hunsplit b d hb' (h2.sublist ?_ (by simpa using ⟨hbmem, he, hdmem⟩)))
        rcases Replaced.mem hends hi with rfl | ⟨-, -, haround⟩
        · exact hins
        · have hbi : Sublist [b, i] s2.order :=
            (Sublist.cons_cons b (Sublist.cons_cons i (nil_sublist [d]))).trans hins
          rcases haround b (hm.lt_size hbmem) hbi with rfl | hbe
          · obtain ⟨-, -, p, -, -, -, hopens, rfl⟩ := Kernel.of_loopBeginOf_ok hb'
            cases hkind.symm.trans hopens
          · exact triple_sublist hnodup2 hbe ((hlast d hd).trans h2.order)
  refine ⟨ends, id, touches, ?_, ?_, fun htrue => Framed.touchesBuffer h1 hm hinputs1 htrue htouches⟩
  · cases hends with
    | alone => exact .alone
    | tailed hbehind => exact .tailed (TailBehind.framed hbehind h2.size h3)
  · rw [← h1.config, ← hparts]
    refine map_congr_left fun i hi => h3.loop i ?_ hi
    exact h2.lists.lt_size (hmem2 i hi)

end Run

end Tails

end KernelLoops
