import KernelLoops.Machine.Run
import KernelLoops.Proofs.BufferSeparation
import KernelLoops.Proofs.TailedNests

set_option autoImplicit false

/-! # How loops step buffers

An operand of a loop belongs to the buffer that produces its tensor or, at an exit, to the one that
takes it first. A loop steps a buffer by the increment of the last operand that belongs to it, and
by nothing where the buffer is declared directly in its body. Buffers that some loop steps
differently get different colors. -/

namespace KernelLoops

open List

/-- The number of operands that are looked at. A negative number of exits counts as none. -/
def LoopParams.operandCount (l : LoopParams) : Nat := max l.numEntries.trips l.numOperands.trips

namespace Kernel

variable {k : Kernel} {e : ExprId} {a : ExprId}

/-- The buffer that an operand of a closing marker belongs to: an entry to the buffer that produces
    its tensor, an exit to the buffer that consumes it before anything but a marker does. -/
def owner? (k : Kernel) (e : Expr) (l : LoopParams) (i : Nat) : Option ExprId := do
  let t ← e.inputs[i]?
  if i < l.numEntries.trips then
    let p ← k.producer? t.id
    if p.kind = .buffer then some p.id else none
  else
    let p ← (k.consumers t.id).find? fun p => !(k.expr p.expr).kind.isMarker
    if (k.expr p.expr).kind = .buffer then some p.expr else none

/-- The loop of a closing marker steps a buffer by `p` elements per unit of work. -/
inductive StepsBy (k : Kernel) (e a : ExprId) : Amount → Prop
  | operand {l : LoopParams} {b : ExprId} {i : Nat} {p : Amount} (hl : (k.expr e).params = .ok l)
      (hb : k.loopBeginOf e = .ok b) (hout : a ∉ (k.body b (some e)).1) (hi : i < l.operandCount)
      (hown : k.owner? (k.expr e) l i = some a) (hp : l.ptrIncrements[i]? = some p)
      (hlast : ∀ j, i < j → j < l.operandCount → k.owner? (k.expr e) l j ≠ some a) : StepsBy k e a p
  | body {b : ExprId} (hb : k.loopBeginOf e = .ok b) (hin : a ∈ (k.body b (some e)).1)
      (hkind : (k.expr a).kind = .buffer) : StepsBy k e a 0

/-! ## What is collected -/

section Collect

variable {find : Int → Except Failure (Option (ExprId × Amount))} {i : Int} {n : Nat}
  {found out : List (ExprId × Amount)}

theorem position_succ (i : Int) (j : Nat) : i + ((j + 1 : Nat) : Int) = i + 1 + j := by omega

/-- A buffer that is not found keeps what it had. -/
theorem lookup_collect_of_not_found (h : collect find i n found = .ok out)
    (hnot : ∀ j < n, ∀ q, find (i + j) ≠ .ok (some (a, q))) : out.lookup a = found.lookup a := by
  induction n generalizing i found with
  | zero =>
    cases h
    rfl
  | succ n ih =>
    have hnext : ∀ j < n, ∀ q, find (i + 1 + j) ≠ .ok (some (a, q)) := by
      intro j hj q
      rw [← position_succ]
      exact hnot (j + 1) (Nat.succ_lt_succ hj) q
    have hfirst := hnot 0 (Nat.zero_lt_succ n)
    rw [Nat.cast_zero, Int.add_zero] at hfirst
    obtain ⟨r, hr, h⟩ := of_except_bind_ok h
    cases r with
    | none => exact ih h hnext
    | some r =>
      obtain ⟨b, step⟩ := r
      rw [ih h hnext]
      exact lookup_put_of_ne _ _ fun heq => hfirst step (heq ▸ hr)

/-- A buffer has the increment it was last found with. -/
theorem lookup_collect_of_last (h : collect find i n found = .ok out) {j : Nat} {p : Amount}
    (hj : j < n)
    (hfound : find (i + j) = .ok (some (a, p)))
    (hlast : ∀ j', j < j' → j' < n → ∀ q, find (i + j') ≠ .ok (some (a, q))) :
    out.lookup a = some p := by
  induction n generalizing i found j with
  | zero => cases hj
  | succ n ih =>
    obtain ⟨r, hr, h⟩ := of_except_bind_ok h
    cases j with
    | zero =>
      rw [Nat.cast_zero, Int.add_zero, hr] at hfound
      cases hfound
      rw [lookup_collect_of_not_found h, lookup_put_self]
      intro j' hj' q
      rw [← position_succ]
      exact hlast (j' + 1) (Nat.zero_lt_succ j') (Nat.succ_lt_succ hj') q
    | succ j =>
      have hrest : ∀ found', collect find (i + 1) n found' = .ok out → out.lookup a = some p := by
        intro found' h'
        refine ih h' (Nat.lt_of_succ_lt_succ hj) (position_succ i j ▸ hfound) fun j' hjj' hj' q => ?_
        rw [← position_succ]
        exact hlast (j' + 1) (Nat.succ_lt_succ hjj') (Nat.succ_lt_succ hj') q
      cases r with
      | none => exact hrest _ h
      | some r => exact hrest _ h

end Collect

/-- Every buffer of a list is stepped by nothing, the others as before. -/
theorem lookup_foldl_put_zero (bs : List ExprId) (steps : List (ExprId × Amount)) :
    (bs.foldl (fun s b => put b 0 s) steps).lookup a = if a ∈ bs then some 0 else steps.lookup a := by
  induction bs generalizing steps with
  | nil => simp
  | cons b rest ih =>
    rw [foldl_cons, ih]
    by_cases hrest : a ∈ rest
    · simp [hrest]
    · by_cases hb : a = b
      · simp [hb, lookup_put_self]
      · simp [hrest, hb, lookup_put_of_ne]

/-! ## What a loop steps -/

variable {x : Expr} {l : LoopParams} {i : Nat} {p : Amount}

/-- An entry is found for the buffer it belongs to. -/
theorem entryBuffer_eq_some_iff (hi : i < l.numEntries.trips) :
    k.entryBuffer x l i = .ok (some (a, p)) ↔ k.owner? x l i = some a ∧ l.ptrIncrements[i]? = some p := by
  unfold entryBuffer owner?
  simp only [if_pos hi]
  constructor
  · intro h
    obtain ⟨t, ht, h⟩ := of_except_bind_ok h
    rw [Expr.input, fetch_eq_ok_iff] at ht
    cases hproducer : k.producer? t.id with
    | none =>
      rw [hproducer] at h
      cases h
    | some y =>
      rw [hproducer] at h
      by_cases hkind : y.kind = .buffer
      · simp only [if_pos hkind] at h
        obtain ⟨step, hstep, h⟩ := of_except_bind_ok h
        cases h
        exact ⟨by simp [ht, hproducer, hkind], fetch_eq_ok_iff.1 hstep⟩
      · simp only [if_neg hkind] at h
        cases h
  · rintro ⟨hown, hstep⟩
    obtain ⟨t, ht, hown⟩ := Option.bind_eq_some_iff.1 hown
    obtain ⟨y, hproducer, hown⟩ := Option.bind_eq_some_iff.1 hown
    obtain ⟨hkind, rfl⟩ : y.kind = .buffer ∧ y.id = a := by simpa using hown
    rw [Expr.input, except_bind_ok (fetch_eq_ok_iff.2 ht), hproducer]
    simp only [if_pos hkind]
    rw [except_bind_ok (fetch_eq_ok_iff.2 hstep)]
    rfl

/-- An exit is found for the buffer it belongs to. -/
theorem exitBuffer_eq_some_iff (hi : ¬i < l.numEntries.trips) :
    k.exitBuffer x l i = .ok (some (a, p)) ↔ k.owner? x l i = some a ∧ l.ptrIncrements[i]? = some p := by
  unfold exitBuffer owner?
  simp only [if_neg hi]
  constructor
  · intro h
    obtain ⟨t, ht, h⟩ := of_except_bind_ok h
    rw [Expr.input, fetch_eq_ok_iff] at ht
    cases hconsumer : (k.consumers t.id).find? fun p => !(k.expr p.expr).kind.isMarker with
    | none =>
      rw [hconsumer] at h
      cases h
    | some y =>
      rw [hconsumer] at h
      by_cases hkind : (k.expr y.expr).kind = .buffer
      · simp only [if_pos hkind] at h
        obtain ⟨step, hstep, h⟩ := of_except_bind_ok h
        cases h
        exact ⟨by simp [ht, hconsumer, hkind], fetch_eq_ok_iff.1 hstep⟩
      · simp only [if_neg hkind] at h
        cases h
  · rintro ⟨hown, hstep⟩
    obtain ⟨t, ht, hown⟩ := Option.bind_eq_some_iff.1 hown
    obtain ⟨y, hconsumer, hown⟩ := Option.bind_eq_some_iff.1 hown
    obtain ⟨hkind, rfl⟩ : (k.expr y.expr).kind = .buffer ∧ y.expr = a := by simpa using hown
    rw [Expr.input, except_bind_ok (fetch_eq_ok_iff.2 ht), hconsumer]
    simp only [if_pos hkind]
    rw [except_bind_ok (fetch_eq_ok_iff.2 hstep)]
    rfl

/-- The exits are counted from the number of entries on, which is not negative where there is an
    exit. -/
theorem exit_position {found out : List (ExprId × Amount)} {j : Nat}
    (h : collect (k.exitBuffer x l) l.numEntries.toInt (l.numOperands.toInt - l.numEntries.toInt).toNat found = .ok out)
    (hj : j < (l.numOperands.toInt - l.numEntries.toInt).toNat) :
    l.numEntries.toInt + j = ((l.numEntries.trips + j : Nat) : Int) := by
  by_cases hneg : 0 ≤ l.numEntries.toInt
  · rw [Nat.cast_add, Amount.trips, Int.toNat_of_nonneg hneg]
  · obtain ⟨n, hn⟩ := Nat.exists_eq_add_one_of_ne_zero (Nat.ne_of_gt (Nat.zero_lt_of_lt hj))
    rw [hn] at h
    obtain ⟨r, hr, -⟩ := of_except_bind_ok h
    obtain ⟨t, ht, -⟩ := of_except_bind_ok hr
    obtain ⟨i, hi, -⟩ := of_fetch_ok ht
    omega

/-- The operands found for a buffer, entries and then exits, give it the increment of the last
    one. -/
theorem lookup_operands {entries operands : List (ExprId × Amount)}
    (hentries : collect (k.entryBuffer x l) 0 l.numEntries.trips [] = .ok entries)
    (hexits : collect (k.exitBuffer x l) l.numEntries.toInt (l.numOperands.toInt - l.numEntries.toInt).toNat entries =
      .ok operands)
    (hi : i < l.operandCount) (hown : k.owner? x l i = some a) (hp : l.ptrIncrements[i]? = some p)
    (hlast : ∀ j, i < j → j < l.operandCount → k.owner? x l j ≠ some a) : operands.lookup a = some p := by
  have hcount : ∀ j < (l.numOperands.toInt - l.numEntries.toInt).toNat, l.numEntries.trips + j < l.operandCount := by
    intro j hj
    have := exit_position hexits hj
    unfold LoopParams.operandCount Amount.trips at *
    omega
  have hexit : ∀ j < (l.numOperands.toInt - l.numEntries.toInt).toNat, ∀ {q},
      k.exitBuffer x l (l.numEntries.toInt + j) = .ok (some (a, q)) ↔
        k.owner? x l (l.numEntries.trips + j) = some a ∧ l.ptrIncrements[l.numEntries.trips + j]? = some q := by
    intro j hj q
    rw [exit_position hexits hj]
    exact exitBuffer_eq_some_iff (Nat.not_lt.2 (Nat.le_add_right _ _))
  by_cases hentry : i < l.numEntries.trips
  · have hfound : entries.lookup a = some p := by
      refine lookup_collect_of_last hentries hentry ?_ fun j hij hj q hq => ?_
      · rw [Int.zero_add]
        exact (entryBuffer_eq_some_iff hentry).2 ⟨hown, hp⟩
      · rw [Int.zero_add] at hq
        exact hlast j hij (Nat.lt_of_lt_of_le hj (Nat.le_max_left _ _)) ((entryBuffer_eq_some_iff hj).1 hq).1
    rw [lookup_collect_of_not_found hexits, hfound]
    intro j hj q hq
    exact hlast _ (by omega) (hcount j hj) ((hexit j hj).1 hq).1
  · obtain ⟨j, rfl⟩ : ∃ j, i = l.numEntries.trips + j := ⟨i - l.numEntries.trips, by omega⟩
    have hj : j < (l.numOperands.toInt - l.numEntries.toInt).toNat := by
      unfold LoopParams.operandCount Amount.trips at hi
      unfold Amount.trips at hentry
      omega
    refine lookup_collect_of_last hexits hj ((hexit j hj).2 ⟨hown, hp⟩) fun j' hjj' hj' q hq => ?_
    exact hlast _ (by omega) (hcount j' hj') ((hexit j' hj').1 hq).1

theorem mem_of_lookup_eq_some {steps : List (ExprId × Amount)} (h : steps.lookup a = some p) :
    (a, p) ∈ steps := by
  induction steps with
  | nil => cases h
  | cons s rest ih =>
    obtain ⟨b, q⟩ := s
    rw [lookup_cons_eq] at h
    split at h
    · next hab =>
        cases h
        exact hab ▸ mem_cons_self
    · exact mem_cons_of_mem _ (ih h)

/-- A buffer that a loop steps is among those found, with its increment. -/
theorem StepsBy.mem_steppedBuffers {steps : List (ExprId × Amount)} (h : k.StepsBy e a p)
    (hsteps : k.steppedBuffers e = .ok steps) : (a, p) ∈ steps := by
  apply mem_of_lookup_eq_some
  unfold steppedBuffers at hsteps
  obtain ⟨l, hl, hsteps⟩ := of_except_bind_ok hsteps
  obtain ⟨entries, hentries, hsteps⟩ := of_except_bind_ok hsteps
  obtain ⟨operands, hoperands, hsteps⟩ := of_except_bind_ok hsteps
  obtain ⟨b, hb, hsteps⟩ := of_except_bind_ok hsteps
  cases hbody : k.body b (some e) with
  | mk body fault =>
  rw [hbody] at hsteps
  cases fault with
  | some f => cases hsteps
  | none =>
    cases hsteps
    rw [lookup_foldl_put_zero]
    cases h with
    | operand hl' hb' hout hi hown hp hlast =>
      rw [hl] at hl'
      cases hl'
      rw [hb] at hb'
      cases hb'
      rw [hbody] at hout
      rw [if_neg fun hmem => hout (mem_of_mem_filter hmem)]
      exact lookup_operands hentries hoperands hi hown hp hlast
    | body hb' hin hkind =>
      rw [hb] at hb'
      cases hb'
      rw [hbody] at hin
      rw [if_pos (mem_filter.2 ⟨hin, decide_eq_true hkind⟩)]

end Kernel

/-- The size of the elements that a buffer holds. -/
def Expr.elementSize (x : Expr) : Except Failure Amount := do (← x.output 0).elementType.size

namespace Kernel

/-- Different increments, or the same over elements of different sizes, keep buffers apart. -/
theorem conflicting_of_apart {k : Kernel} {x y : ExprId} {p q : Amount}
    (h : p ≠ q ∨ p ≠ 0 ∧ ∃ m n, (k.expr x).elementSize = .ok m ∧ (k.expr y).elementSize = .ok n ∧ m ≠ n) :
    k.conflicting (x, p) (y, q) = .ok true := by
  unfold conflicting
  by_cases hpq : p ≠ q
  · rw [if_pos hpq]
    rfl
  · rw [if_neg hpq]
    obtain ⟨hp, m, n, hm, hn, hmn⟩ := h.resolve_left hpq
    obtain ⟨t, ht, hm⟩ := of_except_bind_ok hm
    obtain ⟨u, hu, hn⟩ := of_except_bind_ok hn
    rw [if_neg hp, except_bind_ok ht, except_bind_ok hm, except_bind_ok hu, except_bind_ok hn]
    exact congrArg Except.ok (decide_eq_true hmn)

/-- Where the conflicts of a kernel are known, so is what its loops step. -/
theorem of_conflicts_ok {k : Kernel} {g : ConflictGraph} (h : k.conflicts = .ok g) {e : ExprId}
    (he : e ∈ k.ofKind .loopEnd) : ∃ steps, k.steppedBuffers e = .ok steps := by
  unfold conflicts at h
  generalize ConflictGraph.ofBuffers (k.ofKind .buffer) = start at h
  generalize k.ofKind .loopEnd = es at h he
  induction es generalizing start with
  | nil => cases he
  | cons first rest ih =>
    obtain ⟨g1, hstep, hrest⟩ := of_except_bind_ok h
    rcases mem_cons.1 he with rfl | he
    · obtain ⟨steps, hsteps, -⟩ := of_except_bind_ok hstep
      exact ⟨steps, hsteps⟩
    · exact ih g1 hrest he

/-- Colored buffers have known conflicts. -/
theorem of_color_run_ok {k k' : Kernel} {changed : Bool} {x : ExprId}
    (h : Buffers.color k = .ok changed k')
    (hx : x ∈ k.ofKind .buffer) : ∃ g, k.conflicts = .ok g := by
  unfold Buffers.color at h
  rw [get_bind_run] at h
  have hne : (k.ofKind .buffer).isEmpty = false := by
    rw [isEmpty_eq_false_iff]
    exact ne_nil_of_mem hx
  simp only [hne] at h
  obtain ⟨g, hg, -⟩ := Edit.of_ask_bind_run_ok h
  exact ⟨g, hg⟩

end Kernel

namespace Pipeline

/-- The standard pipeline ends with a kernel that was colored and placed, which shows in colors and
    places only. -/
theorem of_standard_built {b : Builder} (hb : Built b)
    (hok : (run b.kernel standard).failure = none) :
    ∃ split colored changed, split.order.Nodup ∧ Buffers.color split = .ok changed colored ∧
      Buffers.SamePlan colored (run b.kernel standard).kernel ∧
      (run b.kernel standard).kernel.unplaced = split.unplaced := by
  have htidy : b.kernel.Tidy fun _ => True := ⟨hb.plain.lists.order ▸ hb.plain.lists.nodup, trivial, fun _ => trivial⟩
  obtain ⟨split, colored, _, _, hsplit, hcolor, hplace⟩ := of_standard_ok htidy hok
  have hplan : Buffers.SamePlan colored (run b.kernel standard).kernel := by
    have := Buffers.SamePlan.place colored (.refl colored)
    rwa [hplace] at this
  exact ⟨split, colored, _, hsplit.nodup, hcolor, hplan,
    hplan.unplaced.trans (Buffers.of_color_ok hsplit.nodup hcolor).1⟩

/-- Buffers that a loop steps in different ways clash. -/
theorem clash_of_stepsBy {b : Builder} (hb : Built b) (hok : (run b.kernel standard).failure = none)
    {e x y : ExprId} {p q : Amount} (he : e ∈ (run b.kernel standard).kernel.ofKind .loopEnd)
    (hx : x ∈ (run b.kernel standard).kernel.ofKind .buffer)
    (hp : (run b.kernel standard).kernel.StepsBy e x p) (hq : (run b.kernel standard).kernel.StepsBy e y q)
    (hapart : p ≠ q ∨ p ≠ 0 ∧ ∃ m n, ((run b.kernel standard).kernel.expr x).elementSize = .ok m ∧
      ((run b.kernel standard).kernel.expr y).elementSize = .ok n ∧ m ≠ n) :
    (run b.kernel standard).kernel.Clash x y := by
  obtain ⟨split, colored, _, -, hcolor, -, hun⟩ := of_standard_built hb hok
  generalize (run b.kernel standard).kernel = k at *
  -- The loops step the buffers as they did when the colors were chosen.
  have hkinds : ∀ kind, split.ofKind kind = k.ofKind kind := fun kind => by
    rw [← Kernel.ofKind_unplaced k, hun, Kernel.ofKind_unplaced]
  have hsteps : ∀ e, split.steppedBuffers e = k.steppedBuffers e := fun e => by
    rw [← Kernel.steppedBuffers_unplaced k, hun, Kernel.steppedBuffers_unplaced]
  obtain ⟨g, hg⟩ := Kernel.of_color_run_ok hcolor (hkinds .buffer ▸ hx)
  obtain ⟨steps, hfound⟩ := Kernel.of_conflicts_ok hg (hkinds .loopEnd ▸ he)
  rw [hsteps] at hfound
  exact ⟨e, he, steps, hfound, p, q, hp.mem_steppedBuffers hfound, hq.mem_steppedBuffers hfound,
    Kernel.conflicting_of_apart hapart⟩

/-- After the standard pipeline, two buffers that a loop steps by different increments, or by the
    same one that is not zero over elements of different sizes, have different colors. -/
theorem standard_colors_stepped {b : Builder} (hb : Built b)
    (hok : (run b.kernel standard).failure = none)
    {e x y : ExprId} {p q : Amount} (he : e ∈ (run b.kernel standard).kernel.ofKind .loopEnd)
    (hx : x ∈ (run b.kernel standard).kernel.ofKind .buffer) (hy : y ∈ (run b.kernel standard).kernel.ofKind .buffer)
    (hne : x ≠ y) (hp : (run b.kernel standard).kernel.StepsBy e x p)
    (hq : (run b.kernel standard).kernel.StepsBy e y q)
    (hapart : p ≠ q ∨ p ≠ 0 ∧ ∃ m n, ((run b.kernel standard).kernel.expr x).elementSize = .ok m ∧
      ((run b.kernel standard).kernel.expr y).elementSize = .ok n ∧ m ≠ n) :
    ((run b.kernel standard).kernel.expr x).bufferId ≠ ((run b.kernel standard).kernel.expr y).bufferId := by
  have hclash := clash_of_stepsBy hb hok he hx hp hq hapart
  obtain ⟨split, colored, _, hnodup, hcolor, hplan, hun⟩ := of_standard_built hb hok
  have hkinds : split.ofKind .buffer = (run b.kernel standard).kernel.ofKind .buffer := by
    rw [← Kernel.ofKind_unplaced, ← hun, Kernel.ofKind_unplaced]
  rw [← Kernel.clash_unplaced, hun, Kernel.clash_unplaced] at hclash
  rw [hplan.bufferId, hplan.bufferId]
  exact (Buffers.of_color_ok hnodup hcolor).2 x (hkinds ▸ hx) y (hkinds ▸ hy) hne hclash

/-- After the standard pipeline, two buffers have bytes in common exactly when they have one color
    and neither is empty. Those that a loop steps by different increments, or by the same one that
    is not zero over elements of different sizes, never do. -/
theorem standard_separates_stepped {b : Builder} (hb : Built b)
    (hnonneg : ∀ e, ∀ n ∈ (b.kernel.expr e).allocation, 0 ≤ n) (hok : (run b.kernel standard).failure = none)
    (hfits : (run b.kernel standard).kernel.FitsScratch) {x y : ExprId}
    (hx : x ∈ (run b.kernel standard).kernel.ofKind .buffer)
    (hy : y ∈ (run b.kernel standard).kernel.ofKind .buffer) (hne : x ≠ y) :
    let k := (run b.kernel standard).kernel
    ∃ m n, (k.expr x).byteSize = .ok m ∧ (k.expr y).byteSize = .ok n ∧
      (∀ e ∈ k.ofKind .loopEnd, ∀ p q, k.StepsBy e x p → k.StepsBy e y q →
        (p ≠ q ∨ p ≠ 0 ∧ ∃ s t, (k.expr x).elementSize = .ok s ∧ (k.expr y).elementSize = .ok t ∧ s ≠ t) →
        Disjoint ((k.expr x).bytes m) ((k.expr y).bytes n)) ∧
      (Disjoint ((k.expr x).bytes m) ((k.expr y).bytes n) ↔
        (k.expr x).bufferId ≠ (k.expr y).bufferId ∨ m = 0 ∨ n = 0) := by
  intro k
  obtain ⟨m, n, hm, hn, hdisjoint, hiff⟩ := standard_separates_clashing hb hnonneg hok hfits hx hy hne
  exact ⟨m, n, hm, hn, fun e he p q hp hq hapart => hdisjoint (clash_of_stepsBy hb hok he hx hp hq hapart), hiff⟩

/-- The parameters of a loop over sixteen elements, eight at a time, with these pointer
    increments. -/
def stepping (steps : List Amount) (numEntries numExits : Amount) : LoopParams :=
  { id := 0, workAmount := 16, increment := 8, ptrIncrements := steps, finalOffsets := steps.map (-16 * ·),
    elementSizes := steps.map fun _ => 4, numEntries, numExits }

/-- What the one loop of two buffers steps. -/
theorem run_twoBuffers_steps :
    let k := (run (twoBuffers 1 true).kernel standard).kernel
    let l := stepping [1, 0, 1] 2 1
    k.loopBeginOf 14 = .ok 13 ∧ (k.body 13 (some 14)).1 = [8, 9, 10, 11] ∧ (k.expr 14).params = .ok l ∧
      k.owner? (k.expr 14) l 0 = some 4 ∧ k.owner? (k.expr 14) l 1 = some 7 ∧ k.owner? (k.expr 14) l 2 = none := by
  cbv
  decide

/-- A buffer read element by element and one read as a single value: the loop steps them by one and
    by zero. -/
theorem twoBuffers_stepsBy :
    let k := (run (twoBuffers 1 true).kernel standard).kernel
    k.StepsBy 14 4 1 ∧ k.StepsBy 14 7 0 := by
  intro k
  obtain ⟨hbegin, hbody, hl, hfirst, hsecond, hthird⟩ := run_twoBuffers_steps
  have hcount : (stepping [1, 0, 1] 2 1).operandCount = 3 := by decide
  have hnone : ∀ j, j < (stepping [1, 0, 1] 2 1).operandCount → 2 ≤ j →
      k.owner? (k.expr 14) (stepping [1, 0, 1] 2 1) j = none := by
    intro j hj hle
    obtain rfl : j = 2 := by omega
    exact hthird
  constructor
  · refine .operand hl hbegin (hbody ▸ by decide) (hcount ▸ by decide) hfirst rfl fun j hlt hj hown => ?_
    rcases Nat.lt_or_ge j 2 with hlt' | hge
    · obtain rfl : j = 1 := by omega
      rw [hsecond] at hown
      cases hown
    · rw [hnone j hj hge] at hown
      cases hown
  · refine .operand hl hbegin (hbody ▸ by decide) (hcount ▸ by decide) hsecond rfl fun j hlt hj hown => ?_
    rw [hnone j hj hlt] at hown
    cases hown

/-- Buffers that a loop steps by one and by zero have different colors. -/
theorem standard_colors_stepped_single :
    let k := (run (twoBuffers 1 true).kernel standard).kernel
    k.StepsBy 14 4 1 ∧ k.StepsBy 14 7 0 ∧ (k.expr 4).bufferId ≠ (k.expr 7).bufferId := by
  intro k
  have hbuilt : Built (twoBuffers 1 true) := (Built.start _ _ _ _).after (by decide +kernel)
  obtain ⟨hok, hbuffers, hends, -⟩ := run_twoBuffers_single
  obtain ⟨hstep, hstep'⟩ := twoBuffers_stepsBy
  exact ⟨hstep, hstep', standard_colors_stepped hbuilt hok (by rw [hends]; decide) (by rw [hbuffers]; decide)
    (by rw [hbuffers]; decide) (by decide) hstep hstep' (.inl (by decide))⟩

/-- Buffers that a loop steps by one and by zero have no bytes in common. -/
theorem standard_separates_stepped_single :
    let k := (run (twoBuffers 1 true).kernel standard).kernel
    k.FitsScratch ∧ k.StepsBy 14 4 1 ∧ k.StepsBy 14 7 0 ∧ Disjoint ((k.expr 4).bytes 64) ((k.expr 7).bytes 4) := by
  intro k
  have hbuilt : Built (twoBuffers 1 true) := (Built.start _ _ _ _).after (by decide +kernel)
  have hnonneg := (twoBuffers 1 true).kernel.allocation_nonneg (by decide +kernel)
  obtain ⟨hok, hbuffers, hends, hreserved, hreserved', halign, hneeded, hsize, hsize'⟩ := run_twoBuffers_single
  obtain ⟨hstep, hstep'⟩ := twoBuffers_stepsBy
  have hfits : k.FitsScratch :=
    Kernel.fitsScratch_of_two hbuffers (by rw [hreserved, halign]; decide)
      (by rw [hreserved', halign]; decide) (by rw [hneeded]; decide)
  obtain ⟨m, n, hm, hn, hdisjoint, -⟩ := standard_separates_stepped hbuilt hnonneg hok hfits
    (x := 4) (y := 7) (by rw [hbuffers]; decide) (by rw [hbuffers]; decide) (by decide)
  obtain rfl : (64 : Amount) = m := Except.ok.inj (hsize.symm.trans hm)
  obtain rfl : (4 : Amount) = n := Except.ok.inj (hsize'.symm.trans hn)
  exact ⟨hfits, hstep, hstep', hdisjoint 14 (by rw [hends]; decide) 1 0 hstep hstep' (.inl (by decide))⟩

end Pipeline

/-! ## A buffer inside a loop -/

/-- Does an operand of a closing marker meet a buffer: a buffer that produces its tensor, if it is
    an entry, or any buffer that consumes it, if it is an exit? -/
def Kernel.meets (k : Kernel) (e : Expr) (l : LoopParams) (i : Nat) (a : ExprId) : Bool :=
  (k.expr a).kind = .buffer && (e.inputs[i]?).any fun t =>
    if i < l.numEntries.trips then (k.producers t.id).any (·.expr = a) else (k.consumers t.id).any (·.expr = a)

/-- A sum with the single element of buffer #3 is stored, kept in buffer #9 and copied. The two
    loops are fused, and the second buffer then lies in the body of the loop that stores what it
    keeps. -/
def innerBuffer : Builder :=
  (Builder.start {} .float32 1 8).after
    [.parameter [1], .load (vector 1 0), .store (vector 1 1), .buffer (vector 1 2) [], .parameter [16],
      .load (vector 16 4), .broadcastLoad (vector 1 3),
        .elementwise "Add" [vector 16 5, vector 1 6], .store (vector 16 7),
      .loop (some 4) 0 16 8,
      .buffer (vector 16 8) [], .load (vector 16 8), .store (vector 16 10), .loop (some 8) 0 16 8,
      .result (vector 16 8), .result (vector 16 11)]

/-- A buffer declared in the body of a loop counts as stepped by nothing there, also where the loop
    steps an operand that the buffer keeps: it shares memory with a buffer that is not stepped. -/
theorem Pipeline.standard_merges_inner_buffer : ∃ b : Builder, Built b ∧
    let o := run b.kernel standard
    o.failure = none ∧ ∃ e ∈ o.kernel.ofKind .loopEnd, ∃ l, (o.kernel.expr e).params = .ok l ∧ ∃ i j x y p q,
      x ≠ y ∧ o.kernel.meets (o.kernel.expr e) l i x ∧ o.kernel.meets (o.kernel.expr e) l j y ∧
      l.ptrIncrements[i]? = some p ∧ l.ptrIncrements[j]? = some q ∧ p ≠ q ∧
      (o.kernel.expr x).bufferId = (o.kernel.expr y).bufferId := by
  have hrun : let o := run innerBuffer.kernel standard
      let l := stepping [1, 0, 1, 1] 2 2
      o.failure = none ∧ o.kernel.ofKind .loopEnd = [15] ∧ (o.kernel.expr 15).params = .ok l ∧
        o.kernel.meets (o.kernel.expr 15) l 1 3 ∧ o.kernel.meets (o.kernel.expr 15) l 2 9 ∧
        (o.kernel.expr 3).bufferId = (o.kernel.expr 9).bufferId := by
    cbv
    decide
  obtain ⟨hok, hends, hl, hfirst, hsecond, hids⟩ := hrun
  exact ⟨innerBuffer, (Built.start _ _ _ _).after (by decide +kernel), hok, 15, by rw [hends]; decide,
    stepping [1, 0, 1, 1] 2 2, hl, 1, 2, 3, 9, 0, 1, by decide, hfirst, hsecond, rfl, rfl, by decide, hids⟩

/-! ## Fills and buffers

No padded lane is stored, but a fill that takes over an operand also changes the order of its
consumers, and the first consumer decides which buffer a loop steps. -/

/-- One loop stores a row of two elements and a single element. Both are kept in buffers, and the
    buffer of the row is copied. A sum with fill values reads the row before, in a loop that makes
    no trip. -/
def idleSum (fillTails : Bool) : Builder :=
  let row (n : Amount) (id : TensorId) : Tensor := { TensorType.planar .float32 [1, n] with id }
  (Builder.start { fillTails } .float32 2 1).after
    [.parameter [1, 2], .parameter [1, 1],
      .load (row 2 0), .store (row 2 2), .load (row 1 1), .store (row 1 4), .loop (some 1) 1 2 1,
      .elementwise "Add" [row 2 3, row 2 3], .setFill 6 0 0, .setFill 6 1 0,
      .loop (some 5) 1 1 2, .loop (some 5) 0 0 1,
      .buffer (row 2 3) [], .buffer (row 1 5) [],
      .load (row 2 7), .store (row 2 9), .loop (some 8) 1 2 1, .result (row 2 10)]

/-- What becomes of the idle sum. -/
def idleSumLowered (fillTails : Bool) : Pipeline.Outcome :=
  Pipeline.run (idleSum fillTails).kernel [.markers, .tails, .coloring, .placement]

/-- Without padding the two buffers share memory and the single element overwrites the row; with it
    they do not, and the row is copied as it is. -/
theorem Pipeline.outputs_differ_filled :
    (∀ fillTails, Built (idleSum fillTails) ∧ (idleSum fillTails).kernel.WellNested ∧
      (idleSum fillTails).kernel.Sized ∧
      (∀ x ∈ (idleSum fillTails).kernel.sequence, ∀ y ∈ (idleSum fillTails).kernel.sequence,
        x.outRegs ≠ [] → (∃ t ∈ x.outputs, t ∈ y.inputs) → y.loopIds = x.loopIds) ∧
      (idleSumLowered fillTails).failure = none) ∧
    ∀ a b c u v : Float32,
      (Machine.run .single (idleSumLowered false).kernel none [#[a, b], #[c]] [#[u, v]]).map
        (·.outputs .single 2 1) = .ok [#[c, b]] ∧
      (Machine.run .single (idleSumLowered true).kernel none [#[a, b], #[c]] [#[u, v]]).map
        (·.outputs .single 2 1) = .ok [#[a, b]] := by
  refine ⟨fun fillTails => ⟨?_, ?_, ?_, ?_, ?_⟩, fun a b c u v => ⟨?_, ?_⟩⟩
  · exact (Built.start _ _ _ _).after (by decide +revert +kernel)
  · apply Kernel.WellNested.of_agree <;> decide +revert +kernel
  · decide +revert +kernel
  · decide +revert +kernel
  · cases fillTails <;> cbv
  · cbv
  · cbv

end KernelLoops
