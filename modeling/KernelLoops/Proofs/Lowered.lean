import KernelLoops.Proofs.Marking
import KernelLoops.Proofs.SplitLoops

set_option autoImplicit false

/-! # Simulating what was lowered

A kernel with properly nested loops of known size is marked, its tails are split, and the result is
simulated: none of these can fail, and each tensor sees the trail of the lowered code. -/

namespace KernelLoops

open List

variable {k : Kernel} {c d body : Code} {b e e' x : Expr} {xs : List Expr} {l : LoopParams}
  {size : Amount}
  {inserted path : List LoopId}

/-! ## Closing markers of static loops -/

/-- The loop runs over a known amount of work in known steps, and its boundary can be counted. -/
structure LoopInfo.Static (info : LoopInfo) : Prop where
  work : 0 ≤ info.workAmount
  workKnown : info.workAmount.isDynamic = false
  step : 0 < info.increment
  stepKnown : info.increment.isDynamic = false
  ports : info.ports.length < 0x8000000000000000

theorem anyCountM_ok {p : Int → Except Failure Bool} {start : Int} {n : Nat}
    (h : ∀ i < n, ∃ r, p (start + (i : Nat)) = .ok r) : ∃ r, anyCountM start n p = .ok r := by
  induction n generalizing start with
  | zero => exact ⟨false, rfl⟩
  | succ n ih =>
    obtain ⟨r, hr⟩ := h 0 (Nat.succ_pos n)
    rw [Int.natCast_zero, Int.add_zero] at hr
    obtain ⟨r', hr'⟩ := ih (show ∀ i < n, ∃ r, p (start + 1 + (i : Nat)) = .ok r from fun i hi => by
      obtain ⟨r', hr'⟩ := h (i + 1) (Nat.succ_lt_succ hi)
      exact ⟨r', by rw [← hr']; congr 1; omega⟩)
    rw [anyCountM, hr]
    cases r with
    | true => exact ⟨true, rfl⟩
    | false => exact ⟨r', hr'⟩

namespace Expr

/-- The marker closes a loop that has not been split: its amounts make sense, and it has as many
    steps and offsets as operands. -/
structure Whole (e : Expr) (l : LoopParams) : Prop where
  closes : e.Closes l
  work : 0 ≤ l.workAmount
  step : 0 < l.increment
  unsplit : l.once = false
  entries : 0 ≤ l.numEntries.toInt
  operands : l.numEntries.toInt ≤ l.numOperands.toInt

/-- The markers of static loops. -/
theorem Ends.whole {outer : Bool} (h : e.Ends k l outer)
    (hstatic : ∀ info ∈ k.loops.get? l.id, info.Static) :
    e.Whole l := by
  obtain ⟨hloop, info, operands, tie, hinfo, hparams, hinputs⟩ := h
  obtain ⟨hwork, hworkKnown, hstep, hstepKnown, hports⟩ := hstatic info hinfo
  obtain ⟨entries, steps, sizes, hentries, hsteps, hoperands, hl⟩ := Markers.of_loopParams_ok hparams
  have hcount := Markers.length_ptrIncrements hsteps
  have hsame := (forall₂_of_mapM_ok hoperands).length_eq
  have hfew : entries.length + (Markers.steppedExits k info.exits).length < 0x8000000000000000 := by
    have h1 := (Markers.steppedEntries_sublist hentries).length_le
    have h2 : (Markers.steppedExits k info.exits).length ≤ info.exits.length := length_filter_le _ _
    rw [LoopInfo.ports, length_append] at hports
    omega
  have hnumEntries : l.numEntries.toInt = entries.length := by
    rw [hl]
    exact Int64.toInt_ofNat_of_lt (by omega)
  have hnumExits : l.numExits.toInt = (Markers.steppedExits k info.exits).length := by
    rw [hl]
    exact Int64.toInt_ofNat_of_lt (by omega)
  have hnum : l.numOperands.toInt = (entries ++ Markers.steppedExits k info.exits).length := by
    rw [LoopParams.numOperands, Amount.toInt_add_of_fits (by omega) (by omega), hnumEntries, hnumExits,
      length_append, Int.natCast_add]
  have htrips : l.numOperands.trips = (entries ++ Markers.steppedExits k info.exits).length := by
    rw [Amount.trips, hnum, Int.toNat_natCast]
  refine ⟨⟨hloop, ?_, ?_, ?_, ?_⟩, ?_, ?_, ?_, ?_, ?_⟩
  · rw [LoopParams.isStatic, hl]
    simp [hworkKnown, hstepKnown]
  · rw [htrips, ← hcount, hl]
  · rw [htrips, ← hcount, hl, Markers.finalOffsets, length_map]
  · rw [htrips, hsame, hinputs, length_append]
    exact Nat.le_add_right _ _
  · rw [hl]
    exact hwork
  · rw [hl]
    exact hstep
  · rw [hl]
  · rw [hnumEntries]
    exact Int.natCast_nonneg _
  · rw [hnumEntries, hnum, length_append]
    omega

/-- Whether a loop touches a buffer can be answered. -/
theorem Closes.touchesBuffer (h : e.Closes l) (hentries : 0 ≤ l.numEntries.toInt)
    (hoperands : l.numEntries.toInt ≤ l.numOperands.toInt) (m : Kernel) :
    Tails.touchesBuffer m e l = .ok (m.touches e l) := by
  have hany : ∀ (start : Int) (n : Nat) (f : Tensor → Bool), 0 ≤ start → start + n ≤ l.numOperands.toInt →
      ∃ r, (anyCountM start n fun i => do return f (← e.input i) : Except Failure Bool) = .ok r := by
    intro start n f h0 hle
    refine anyCountM_ok fun i hi => ?_
    obtain ⟨j, hj⟩ := Int.eq_ofNat_of_zero_le (show 0 ≤ start + (i : Nat) by omega)
    have hlen := h.inputs
    have hlt : j < e.inputs.length := by
      rw [Amount.trips] at hlen
      omega
    have hget : e.input j = .ok e.inputs[j] := fetch_eq_ok_iff.2 (getElem?_eq_getElem hlt)
    exact ⟨f e.inputs[j], by rw [hj, hget]; rfl⟩
  have hanswer : ∃ r, Tails.touchesBuffer m e l = .ok r := by
    obtain ⟨entry, hentry⟩ := hany 0 l.numEntries.trips
      (fun t => (m.producer? t.id).any fun p => p.kind = .buffer) (by omega) (by rw [Amount.trips]; omega)
    obtain ⟨exit, hexit⟩ := hany l.numEntries.toInt (l.numOperands.toInt - l.numEntries.toInt).toNat
      (fun t => (m.consumers t.id).any fun p => (m.expr p.expr).kind = .buffer) (by omega) (by omega)
    unfold Tails.touchesBuffer
    rw [hentry]
    cases entry with
    | true => exact ⟨true, rfl⟩
    | false => exact ⟨exit, hexit⟩
  obtain ⟨r, hr⟩ := hanswer
  rw [Kernel.touches, hr]

end Expr

/-! ## Lowered code can be simulated -/

namespace LoopParams

theorem length_absorbSteps (increment : Amount) (fs ps : List Amount) :
    (absorbSteps increment fs ps).length = fs.length := by
  induction fs generalizing ps with
  | nil => rfl
  | cons f fs ih =>
    cases ps with
    | nil => rfl
    | cons p ps => exact congrArg Nat.succ (ih ps)

end LoopParams

namespace Expr

theorem Closes.rename (h : e.Closes l) (table : List (TensorId × Tensor)) :
    (e.rename table).Closes l :=
  ⟨h.params, h.static, h.steps, h.offsets, by rw [Expr.rename, length_map]; exact h.inputs⟩

/-- A marker has its parameters apart from its number, its tags and the name of the loop. -/
theorem loop_of_bare (hl : e.loop = some l) (h : e'.bare = e.bare) :
    ∃ id, e'.loop = some { l with id } := by
  have hloop : e'.bare.loop = e.bare.loop := by rw [h]
  simp only [bare, hl, Option.map_some] at hloop
  obtain ⟨l', hl', hsame⟩ := Option.map_eq_some_iff.1 hloop
  have hid : l' = { l with id := l'.id } := congrArg (fun p : LoopParams => { p with id := l'.id }) hsame
  exact ⟨l'.id, hl'.trans (congrArg some hid)⟩

theorem Closes.congr (h : e.Closes l) (hbare : e'.bare = e.bare) :
    ∃ id, e'.Closes { l with id } := by
  obtain ⟨id, hl⟩ := loop_of_bare h.params hbare
  have hin : e'.bare.inputs = e.bare.inputs := by rw [hbare]
  exact ⟨id, hl, h.static, h.steps, h.offsets, by rw [show e'.inputs = e.inputs from hin]; exact h.inputs⟩

/-- A marker that gets the parameters of a loop with as many operands. -/
theorem Closes.withParams {l' : LoopParams} (h : e.Closes l) (hstatic : l'.isStatic = true)
    (hsteps : l'.ptrIncrements.length = l.ptrIncrements.length)
    (hoffsets : l'.finalOffsets.length = l.finalOffsets.length) (hnum : l'.numOperands = l.numOperands) :
    (e.withParams l').Closes l' :=
  ⟨rfl, hstatic, by rw [hsteps, h.steps, hnum], by rw [hoffsets, h.offsets, hnum], by rw [hnum]; exact h.inputs⟩

theorem Closes.optimized (h : e.Closes l) (optimize force : Bool) :
    (e.withParams (l.optimized optimize force)).Closes (l.optimized optimize force) := by
  unfold LoopParams.optimized
  split
  · refine h.withParams h.static rfl ?_ rfl
    show (if _ then _ else _ : List Amount).length = _
    split
    · exact LoopParams.length_absorbSteps _ _ _
    · rfl
  · exact h.withParams h.static rfl rfl rfl

/-- A loop that is scaled down to a known size. -/
theorem Closes.scaledTo (h : e.Closes l) (hsize : size.isDynamic = false) :
    (e.scaledTo size).Closes (l.scaledTo size) := by
  have hsame : e.scaledTo size = e.withParams (l.scaledTo size) := by
    rw [Expr.scaledTo, h.params]
    rfl
  have hstatic := h.static
  simp only [LoopParams.isStatic, Bool.and_eq_true, Bool.not_eq_true'] at hstatic
  have hstep : (min l.increment size).isDynamic = false := by
    show (if l.increment ≤ size then l.increment else size).isDynamic = false
    split
    · exact hstatic.2
    · exact hsize
  rw [hsame]
  refine h.withParams (by simp [LoopParams.isStatic, LoopParams.scaledTo, hsize, hstep]) rfl ?_ rfl
  show (if _ then _ else _ : List Amount).length = _
  split
  · rfl
  · exact length_map _

/-- The work of a tail is known. -/
theorem Whole.known_mod (h : e.Whole l) : (l.workAmount % l.increment).isDynamic = false := by
  have hstatic := h.closes.static
  simp only [LoopParams.isStatic, Bool.and_eq_true, Bool.not_eq_true'] at hstatic
  obtain ⟨-, -, hupper⟩ := Amount.toInt_mod_bounds h.work h.step
  exact Amount.isDynamic_of_le hstatic.1 (Amount.le_iff.2 hupper)

/-- The amounts of the two parts of a loop are known. -/
theorem Whole.static_parts (h : e.Whole l) :
    (l.shortened (l.workAmount % l.increment)).isStatic = true ∧
      (l.tail (l.workAmount % l.increment)).isStatic = true := by
  have hstatic := h.closes.static
  simp only [LoopParams.isStatic, Bool.and_eq_true, Bool.not_eq_true'] at hstatic
  obtain ⟨hlower, -, -⟩ := Amount.toInt_mod_bounds h.work h.step
  have hshort : (l.workAmount - l.workAmount % l.increment).isDynamic = false := by
    refine Amount.isDynamic_of_le hstatic.1 (Amount.le_iff.2 ?_)
    rw [Amount.toInt_sub_mod h.work h.step]
    omega
  exact ⟨by simp [LoopParams.isStatic, LoopParams.shortened, hshort, hstatic.2],
    by simp [LoopParams.isStatic, LoopParams.tail, h.known_mod]⟩

theorem Whole.closes_shortened (h : e.Whole l) :
    (e.withParams (l.shortened (l.workAmount % l.increment))).Closes (l.shortened (l.workAmount % l.increment)) :=
  h.closes.withParams h.static_parts.1 rfl (length_map _) rfl

theorem Whole.closes_tail (h : e.Whole l) :
    (e.withParams (l.tail (l.workAmount % l.increment))).Closes (l.tail (l.workAmount % l.increment)) :=
  h.closes.withParams h.static_parts.2 rfl rfl rfl

/-- What an expression can be simulated by does not depend on more than its kind and the number of
    its operands. -/
theorem Playable.congr {y : Expr} (h : x.Playable) (hkind : y.kind = x.kind)
    (hin : y.inputs = [] → x.inputs = [])
    (hout : y.outputs = [] → x.outputs = []) : y.Playable :=
  ⟨hkind ▸ h.marker, fun hk hnil => h.source (hkind ▸ hk) (hin hnil), fun hk hnil => h.target (hkind ▸ hk) (hout hnil)⟩

theorem Playable.rename (h : x.Playable) (table : List (TensorId × Tensor)) :
    (x.rename table).Playable :=
  h.congr rfl map_eq_nil_iff.1 map_eq_nil_iff.1

theorem Playable.of_fill (h : x.kind = .fill) : x.Playable := by
  refine ⟨by rw [h]; decide, fun hk => ?_, fun hk => ?_⟩
  · rw [h] at hk
    rcases hk with hk | hk <;> cases hk
  · rw [h] at hk
    rcases hk with hk | hk <;> cases hk

theorem length_inputs_fillPorts (size : Amount) (values : List (Nat × UInt32)) (ports : List Nat)
    (x : Expr)
    (n : TensorId) : (x.fillPorts size values ports n).2.1.inputs.length = x.inputs.length ∧
      (x.fillPorts size values ports n).2.1.outputs = x.outputs := by
  induction ports generalizing x n with
  | nil => exact ⟨rfl, rfl⟩
  | cons port ports ih =>
    rw [fillPorts]
    split
    · next value t _ _ =>
        obtain ⟨hin, hout⟩ := ih (x.filled port { t.toTensorType with id := n }) (n + 1)
        exact ⟨hin.trans (by simp [filled]), hout⟩
    · exact ih x n

/-- A narrowed expression can be simulated, and so can its fills. -/
theorem Playable.narrowed (h : x.Playable) (fillTails : Bool) (size : Amount) (n : TensorId) :
    (∀ f ∈ (x.narrowed fillTails size n).1, f.Playable) ∧ (x.narrowed fillTails size n).2.1.Playable := by
  obtain ⟨hfills, hkind⟩ := x.kind_narrowed fillTails size n
  refine ⟨fun f hf => .of_fill (hfills f hf), ?_⟩
  have hsame : (x.narrowed fillTails size n).2.1.inputs.length = x.inputs.length ∧
      (x.narrowed fillTails size n).2.1.outputs = x.outputs := by
    rw [Expr.narrowed]
    split
    · exact length_inputs_fillPorts size x.fills _ x n
    · split <;> exact ⟨rfl, rfl⟩
  refine h.congr hkind (fun hnil => ?_) fun hnil => hsame.2 ▸ hnil
  rw [← length_eq_zero_iff, ← hsame.1, hnil, length_nil]

end Expr

namespace Code

/-- Simulating code does not look at numbers, tags and names of loops. -/
theorem Playable.congr (hc : c.Playable) (h : c.bare = d.bare) : d.Playable := by
  induction Alike.of_bare h with
  | done => trivial
  | @op x y _ _ hx hrest ih =>
    have hkind : x.bare.kind = y.bare.kind := by rw [hx]
    have hin : x.bare.inputs = y.bare.inputs := by rw [hx]
    have hout : x.bare.outputs = y.bare.outputs := by rw [hx]
    exact ⟨hc.1.congr hkind.symm (fun hnil => hin.trans hnil) fun hnil => hout.trans hnil, ih hc.2 hrest.bare⟩
  | loop _ he hbody hrest ihbody ihrest =>
    obtain ⟨⟨l, hl⟩, hplay, hplay'⟩ := hc
    obtain ⟨id, hclose⟩ := hl.congr he.symm
    exact ⟨⟨_, hclose⟩, ihbody hplay hbody.bare, ihrest hplay' hrest.bare⟩

theorem Playable.ofOps (hxs : ∀ x ∈ xs, x.Playable) (hc : c.Playable) : (ofOps xs c).Playable := by
  induction xs with
  | nil => exact hc
  | cons x xs ih => exact ⟨hxs x mem_cons_self, ih fun y hy => hxs y (mem_cons_of_mem x hy)⟩

theorem Playable.append (hc : c.Playable) (hd : d.Playable) : (c.append d).Playable := by
  induction c with
  | done => exact hd
  | op x rest ih => exact ⟨hc.1, ih hc.2⟩
  | loop b e body rest _ ih => exact ⟨hc.1, hc.2.1, ih hc.2.2⟩

theorem Playable.rename (hc : c.Playable) (table : List (TensorId × Tensor)) :
    (c.map (Expr.rename table)).Playable := by
  induction c with
  | done => trivial
  | op x rest ih => exact ⟨hc.1.rename table, ih hc.2⟩
  | loop b e body rest ihbody ihrest =>
    obtain ⟨⟨l, hl⟩, hbody, hrest⟩ := hc
    exact ⟨⟨l, hl.rename table⟩, ihbody hbody, ihrest hrest⟩

theorem Playable.narrowed (hc : c.Playable) (fillTails : Bool) (size : Amount) (n : TensorId) :
    (c.narrowed fillTails size n).1.Playable := by
  induction c generalizing n with
  | done => trivial
  | op x rest ih =>
    obtain ⟨hfills, hx⟩ := hc.1.narrowed fillTails size n
    exact .ofOps hfills ⟨hx, ih hc.2 _⟩
  | loop b e body rest _ ih => exact ⟨hc.1, hc.2.1, ih hc.2.2 n⟩

/-- Every expression can be simulated and no loop has been split. -/
def Whole : Code → Prop
  | done => True
  | op x rest => x.Playable ∧ rest.Whole
  | loop _ e body rest => (∃ l, e.Whole l) ∧ body.Whole ∧ rest.Whole

theorem Playable.scaledTo (hc : c.Playable) (fillTails : Bool) (hsize : size.isDynamic = false)
    (n : TensorId) :
    (c.scaledTo fillTails size n).1.Playable := by
  induction c generalizing n with
  | done => trivial
  | op x rest ih => exact ⟨hc.1, ih hc.2 n⟩
  | loop b e body rest ihbody ihrest =>
    obtain ⟨⟨l, hl⟩, hbody, hrest⟩ := hc
    exact ⟨⟨_, hl.scaledTo hsize⟩, (ihbody hbody n).narrowed _ _ _, ihrest hrest _⟩

theorem Playable.shrunk (hc : c.Playable) (blocks fillTails : Bool) (hsize : size.isDynamic = false)
    (n : TensorId) :
    (c.shrunk blocks fillTails size n).1.Playable := by
  cases blocks with
  | true => exact (hc.scaledTo fillTails hsize n).narrowed _ _ _
  | false => exact hc.narrowed _ _ _

theorem Playable.withTail (he : e.Whole l) (hbody : body.Playable) (blocks : Bool) (m : Kernel)
    (out : List TensorId)
    (n : TensorId) : (withTail blocks m b e l body (l.workAmount % l.increment) out n).1.Playable := by
  have hvector := he.closes_shortened.optimized m.config.evaluateOnce true
  have htail := he.closes_tail.optimized m.config.evaluateOnce (m.touches e l)
  exact ⟨⟨_, hvector⟩, hbody, ⟨_, htail.rename _⟩, (hbody.rename _).shrunk _ _ he.known_mod _, trivial⟩

theorem Playable.cutLoop (he : e.Whole l) (hbody : body.Playable) (blocks : Bool) (m : Kernel)
    (out : List TensorId)
    (n : TensorId) : (cutLoop blocks m b e body out n).1.Playable := by
  unfold Code.cutLoop
  simp only [he.closes.params]
  split
  · exact ⟨⟨l, he.closes⟩, hbody, trivial⟩
  split
  · exact ⟨⟨_, he.closes.optimized _ _⟩, hbody, trivial⟩
  split
  · exact hbody.withTail he blocks m out n
  · exact ⟨⟨_, he.closes_tail.optimized _ _⟩, hbody.shrunk _ _ he.known_mod _, trivial⟩

/-- Code whose loops have been split can be simulated. -/
theorem Whole.cut (hc : c.Whole) (blocks : Expr → Bool) (m : Kernel) (out : List TensorId)
    (n : TensorId) :
    (c.cut blocks m out n).1.Playable := by
  induction c generalizing out n with
  | done => trivial
  | op x rest ih => exact ⟨hc.1, ih hc.2 _ n⟩
  | loop b e body rest ihbody ihrest =>
    obtain ⟨⟨l, hl⟩, hbody, hrest⟩ := hc
    exact (Playable.cutLoop hl (ihbody hbody _ n) (blocks e) m _ _).append (ihrest hrest _ _)

end Code

/-! ## Marked kernels -/

/-- Every loop that tags an expression is static. -/
def Kernel.Static (k : Kernel) : Prop :=
  ∀ x ∈ k.sequence, ∀ id ∈ x.loopIds, ∀ info ∈ k.loops.get? id, info.Static

theorem Expr.Plain.playable {loops : LoopTable} (h : x.Plain loops) : x.Playable := by
  refine ⟨fun hkind => ?_, h.source, h.target⟩
  have hbuilt := h.kind
  rw [hkind] at hbuilt
  cases hbuilt

theorem Code.Whole.of_marks (hexprs : ∀ x ∈ k.sequence, x.Plain k.loops) (hs : k.Static)
    (hc : c.Marks k inserted path) (hsub : ∀ x ∈ c.ops, x ∈ k.sequence) : c.Whole := by
  induction c generalizing path with
  | done => trivial
  | op x rest ih =>
    exact ⟨(hexprs x (hsub x mem_cons_self)).playable,
      ih hc.2 fun y hy => hsub y (mem_cons_of_mem x hy)⟩
  | loop b e body rest ihbody ihrest =>
    obtain ⟨l, hends, hops, hne, hbody, hrest⟩ := hc
    obtain ⟨x, hx⟩ := exists_mem_of_ne_nil _ hne
    rw [hops] at hx
    obtain ⟨hxseq, hxtag⟩ := mem_filter.1 hx
    obtain ⟨_, hends, -⟩ := hends.ends
    refine ⟨⟨l, hends.whole (hs x hxseq l.id (contains_iff_mem.1 hxtag))⟩, ihbody hbody fun y hy => ?_,
      ihrest hrest fun y hy => ?_⟩
    · exact hsub y (mem_append_left _ hy)
    · exact hsub y (mem_append_right _ hy)

theorem Code.Whole.of_mem (hc : c.Whole) (hn : c.Nested xs) (he : e ∈ c.flatten)
    (hkind : e.kind = .loopEnd) :
    ∃ l, e.Whole l := by
  induction c with
  | done => cases he
  | op x rest ih =>
    rcases mem_cons.1 he with rfl | he
    · exact absurd hkind hc.1.marker
    · exact ih hc.2 hn.2 he
  | loop b e' body rest ihbody ihrest =>
    simp only [flatten, mem_cons, mem_append] at he
    rcases he with rfl | he | rfl | he
    · rw [hn.1.opens] at hkind
      cases hkind
    · exact ihbody hc.2.1 hn.2.1 he
    · exact hc.1
    · exact ihrest hc.2.2 hn.2.2 he

theorem Code.Marks.registered (hc : c.Marks k inserted path) (hn : c.Nested xs) (he : e ∈ c.flatten)
    (hkind : e.kind = .loopEnd) (hl : e.loop = some l) : (k.loops.get? l.id).isSome := by
  induction c generalizing path with
  | done => cases he
  | op x rest ih =>
    rcases mem_cons.1 he with rfl | he
    · have hmarker := hn.1
      rw [hkind] at hmarker
      cases hmarker
    · exact ih hc.2 hn.2 he
  | loop b e' body rest ihbody ihrest =>
    obtain ⟨l', hends, -, -, hbody, hrest⟩ := hc
    simp only [flatten, mem_cons, mem_append] at he
    rcases he with rfl | he | rfl | he
    · rw [hn.1.opens] at hkind
      cases hkind
    · exact ihbody hbody hn.2.1 he
    · obtain ⟨_, ⟨hloop, info, -, -, hinfo, -⟩, -⟩ := hends.ends
      obtain rfl : l' = l := Option.some.inj (hloop.symm.trans hl)
      rw [hinfo]
      rfl
    · exact ihrest hrest hn.2.2 he

/-- The markers have the amounts of the table. -/
theorem Code.Marks.agrees (hc : c.Marks k inserted path) : c.Agrees k.loops := by
  induction c generalizing path with
  | done => trivial
  | op x rest ih => exact ih hc.2
  | loop b e body rest ihbody ihrest =>
    obtain ⟨l, hends, -, -, hbody, hrest⟩ := hc
    refine ⟨?_, ihbody hbody, ihrest hrest⟩
    intro l' hl'
    obtain ⟨_, ⟨hloop, info, operands, -, hinfo, hparams, -⟩, -⟩ := hends.ends
    obtain rfl : l = l' := Option.some.inj (hloop.symm.trans hl')
    obtain ⟨_, _, _, -, -, -, hl⟩ := Markers.of_loopParams_ok hparams
    exact ⟨info, hinfo, by rw [hl], by rw [hl]⟩

theorem Expr.Whole.ready (h : e.Whole l) {m : Kernel}
    (hknown : ∀ t ∈ e.inputs, t.id < m.nextTensor) :
    Tails.Ready m e l where
  params := h.closes.params
  static := h.closes.static
  offsets := Nat.le_of_eq (h.closes.offsets.trans h.closes.steps.symm)
  unsplit := h.unsplit
  work := h.work
  step := h.step
  touches := h.closes.touchesBuffer h.entries h.operands m
  known := hknown

namespace Markers.Marked

variable {m : Kernel} (hm : Marked k m inserted c)

include hm

theorem whole (hexprs : ∀ x ∈ k.sequence, x.Plain k.loops) (hs : k.Static) : c.Whole :=
  .of_marks hexprs hs hm.marks fun _ hx => hm.ops ▸ hx

section

variable (htags : ∀ x ∈ k.sequence, ∀ id ∈ x.loopIds, id.isSentinel = false →
  (k.loops.get? id).isSome)

include htags

/-- Where the tags of a kernel are registered, those of the marked kernel are. -/
theorem tagged (hx : x ∈ c.flatten) : x.Tagged m.loops := by
  rw [hm.loops]
  refine ⟨fun id hid hs => ?_, fun hkind l hl => hm.marks.registered hm.nested hx hkind hl⟩
  cases hmarker : x.kind.isMarker with
  | true => exact hm.known id (hm.markers x hx hmarker id (LoopId.mem_loops.2 ⟨hid, hs⟩))
  | false => exact htags x (hm.ops ▸ hm.nested.mem_ops hx hmarker) id hid hs

theorem registered : c.Registered m.loops inserted [] where
  labelled := hm.labelled
  known id hid := hm.loops ▸ hm.known id hid
  tagged _ hx := hm.tagged htags hx
  apart := hm.names.nodup_iff.2 hm.once
  outside := by simp
  agrees := hm.loops ▸ hm.marks.agrees

end

/-- A marked kernel can be lowered further and simulated under any configuration. -/
theorem simulate_cut (hexprs : ∀ x ∈ k.sequence, x.Plain k.loops) (hloops : k.loops.Numbered)
    (hs : k.Static) {blocks : Expr → Bool} (hblocked : c.Blocked k.loops blocks) (config : Config) :
    ∃ changed k' trace, Tails.run { m with config } = .ok changed k' ∧ Simulation.run k' = .ok trace ∧
      ∀ T, trace.accessesOf T = ((c.cut blocks { m with config } [] m.nextTensor).1.trail T).accessesFrom T 0 ∧
        trace.position T = ((c.cut blocks { m with config } [] m.nextTensor).1.trail T).net := by
  let m' : Kernel := { m with config }
  have hlists : m'.Lists c.flatten := hm.lists.congr rfl rfl rfl (Nat.le_refl _) (Nat.le_refl _) fun _ _ => rfl
  have hwhole := hm.whole hexprs hs
  obtain ⟨c', k', changed, hrun, hlists', hnested', hbare, -, -⟩ :=
    Tails.run_cut hlists hm.nested (show m.loops.Numbered from hm.loops ▸ hloops)
      (hm.registered fun x hx => (hexprs x hx).tags) (show c.Blocked m.loops blocks from hm.loops ▸ hblocked)
      fun e he hkind => by
        obtain ⟨l, hl⟩ := hwhole.of_mem hm.nested he hkind
        exact ⟨l, hl.closes.params, fun _ => hl.ready fun t ht => hm.lists.known e he t (.inl ht)⟩
  obtain ⟨trace, hsim, htrace⟩ :=
    Simulation.run_eq hlists' hnested' ((hwhole.cut blocks m' [] m'.nextTensor).congr hbare.symm)
  refine ⟨changed, k', trace, hrun, hsim, fun T => ?_⟩
  have htrail : c'.trail T = (c.cut blocks m' [] m'.nextTensor).1.trail T := by
    rw [← Code.trail_bare, hbare, Code.trail_bare]
  rw [← show c'.trail T = (c.cut blocks m' [] m.nextTensor).1.trail T from htrail]
  exact htrace T

/-- A marked kernel without loops that are cut into blocks. -/
theorem simulate (hk : k.Plain) (hs : k.Static) (config : Config) :
    ∃ changed k' trace, Tails.run { m with config } = .ok changed k' ∧ Simulation.run k' = .ok trace ∧
      ∀ T, trace.accessesOf T = ((c.lower { m with config } [] m.nextTensor).1.trail T).accessesFrom T 0 ∧
        trace.position T = ((c.lower { m with config } [] m.nextTensor).1.trail T).net :=
  hm.simulate_cut hk.exprs hk.loops.toNumbered hs (Code.blocked_of_plain hk.loops c) config

end Markers.Marked

end KernelLoops
