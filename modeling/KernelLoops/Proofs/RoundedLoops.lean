import KernelLoops.Proofs.Lowered

set_option autoImplicit false

/-! # Rounded loops

Once the tails of a kernel are split, every loop of known size runs over whole increments, and the
loops that stand for one loop of the kernel share out its work. There is nothing left to split:
doing it again gives the same kernel. -/

namespace KernelLoops

variable {m : Kernel} {xs : List Expr} {Q : Expr → Prop}

/-! ## Rounded loops -/

namespace Expr

/-- The marker closes a loop that has been dealt with: it runs over whole increments, and it is
    evaluated once if it can be. -/
structure Rounded (optimize : Bool) (e : Expr) (l : LoopParams) : Prop where
  closes : e.Closes l
  entries : 0 ≤ l.numEntries.toInt
  operands : l.numEntries.toInt ≤ l.numOperands.toInt
  work : 0 ≤ l.workAmount
  step : 0 < l.increment
  divides : l.workAmount % l.increment = 0
  single : l.once = true → l.workAmount ≤ l.increment
  stays : l.workAmount ≠ 0 → l.once = false → l.runsOnce optimize = false

variable {e : Expr} {l : LoopParams} {optimize : Bool}

/-- A loop over whole increments that is evaluated once where possible. -/
theorem Rounded.optimized (h : e.Closes l) (hentries : 0 ≤ l.numEntries.toInt)
    (hoperands : l.numEntries.toInt ≤ l.numOperands.toInt) (hwork : 0 ≤ l.workAmount) (hstep : 0 < l.increment)
    (hdiv : l.workAmount % l.increment = 0) (honce : l.once = false) (optimize force : Bool) :
    (e.withParams (l.optimized optimize force)).Rounded optimize (l.optimized optimize force) := by
  have hcloses := h.optimized optimize force
  unfold LoopParams.optimized at hcloses ⊢
  split
  · next hruns =>
      rw [if_pos hruns] at hcloses
      refine ⟨hcloses, hentries, hoperands, hwork, hstep, hdiv, fun _ => ?_,
        fun _ hfalse => absurd hfalse.symm Bool.false_ne_true⟩
      simp only [LoopParams.runsOnce, Bool.and_eq_true, decide_eq_true_eq] at hruns
      -- less than two increments of work, and whole ones
      have hless := ((Amount.lt_double_iff hwork hstep).1 hruns.2).1
      have hwork' : 0 ≤ l.workAmount.toInt := Amount.le_iff.1 hwork
      have hstep' : 0 < l.increment.toInt := Amount.lt_iff.1 hstep
      have hmod : l.workAmount.toInt % l.increment.toInt = 0 := by
        rw [← Amount.toInt_mod_of_nonneg hwork', hdiv]
        rfl
      obtain ⟨n, hn⟩ := Int.dvd_of_emod_eq_zero hmod
      have hn' : n < 2 := Int.lt_of_mul_lt_mul_left (by rw [← hn]; omega) hstep'.le
      refine Amount.le_iff.2 ?_
      calc l.workAmount.toInt = l.increment.toInt * n := hn
        _ ≤ l.increment.toInt * 1 := Int.mul_le_mul_of_nonneg_left (by omega) hstep'.le
        _ = l.increment.toInt := Int.mul_one _
  · next hruns =>
      rw [if_neg hruns] at hcloses
      refine ⟨hcloses, hentries, hoperands, hwork, hstep, hdiv, fun hone => ?_, fun _ _ => ?_⟩
      · rw [honce] at hone
        cases hone
      · exact Bool.eq_false_iff.2 hruns

theorem Rounded.rename (h : e.Rounded optimize l) (table : List (TensorId × Tensor)) :
    (e.rename table).Rounded optimize l :=
  ⟨h.closes.rename table, h.entries, h.operands, h.work, h.step, h.divides, h.single, h.stays⟩

theorem Rounded.congr {e' : Expr} (h : e.Rounded optimize l) (hbare : e'.bare = e.bare) :
    ∃ id, e'.Rounded optimize { l with id } := by
  obtain ⟨id, hcloses⟩ := h.closes.congr hbare
  exact ⟨id, hcloses, h.entries, h.operands, h.work, h.step, h.divides, h.single, h.stays⟩

/-- A loop without work is rounded. -/
theorem Whole.rounded_of_idle (h : e.Whole l) (hwork : l.workAmount = 0) (optimize : Bool) :
    e.Rounded optimize l where
  closes := h.closes
  entries := h.entries
  operands := h.operands
  work := h.work
  step := h.step
  divides := by
    rw [hwork]
    exact Int64.zero_mod
  single hone := by
    rw [h.unsplit] at hone
    cases hone
  stays hne := absurd hwork hne

/-- A loop over whole increments is rounded. -/
theorem Whole.rounded_optimized (h : e.Whole l) (hdiv : l.workAmount % l.increment = 0)
    (optimize force : Bool) :
    (e.withParams (l.optimized optimize force)).Rounded optimize (l.optimized optimize force) :=
  .optimized h.closes h.entries h.operands h.work h.step hdiv h.unsplit optimize force

/-- A loop without the rest of its last increment is rounded. -/
theorem Whole.rounded_shortened (h : e.Whole l) (optimize force : Bool) :
    (e.withParams ((l.shortened (l.workAmount % l.increment)).optimized optimize force)).Rounded optimize
      ((l.shortened (l.workAmount % l.increment)).optimized optimize force) := by
  exact .optimized h.closes_shortened h.entries h.operands (Amount.sub_mod_nonneg h.work h.step) h.step
    (Amount.sub_mod_mod h.work h.step) h.unsplit optimize force

/-- The tail of a loop is rounded. -/
theorem Whole.rounded_tail (h : e.Whole l) (hrest : l.workAmount % l.increment ≠ 0)
    (optimize force : Bool) :
    (e.withParams ((l.tail (l.workAmount % l.increment)).optimized optimize force)).Rounded optimize
      ((l.tail (l.workAmount % l.increment)).optimized optimize force) := by
  have hpos := (Amount.mod_pos h.work h.step hrest).1
  exact .optimized h.closes_tail h.entries h.operands (Int64.le_of_lt hpos) hpos Int64.mod_self rfl optimize force

end Expr

namespace Code

variable {c d body : Code} {b e x : Expr} {l : LoopParams} {optimize : Bool}

section Closings

variable {P : Expr → Prop}

/-- All closing markers of the code have the property. -/
def Closings (P : Expr → Prop) : Code → Prop
  | done => True
  | op _ rest => rest.Closings P
  | loop _ e body rest => P e ∧ body.Closings P ∧ rest.Closings P

theorem Closings.of_mem (hc : c.Closings P) (hn : c.Nested xs) (he : e ∈ c.flatten)
    (hkind : e.kind = .loopEnd) :
    P e := by
  induction c with
  | done => cases he
  | op x rest ih =>
    rcases List.mem_cons.1 he with rfl | he
    · have hmarker := hn.1
      rw [hkind] at hmarker
      cases hmarker
    · exact ih hc hn.2 he
  | loop b e' body rest ihbody ihrest =>
    simp only [flatten, List.mem_cons, List.mem_append] at he
    rcases he with rfl | he | rfl | he
    · rw [hn.1.opens] at hkind
      cases hkind
    · exact ihbody hc.2.1 hn.2.1 he
    · exact hc.1
    · exact ihrest hc.2.2 hn.2.2 he

theorem Closings.imp (hc : c.Closings P) (h : ∀ e, P e → Q e) : c.Closings Q := by
  induction c with
  | done => trivial
  | op x rest ih => exact ih hc
  | loop b e body rest ihbody ihrest => exact ⟨h e hc.1, ihbody hc.2.1, ihrest hc.2.2⟩

theorem Closings.congr (hP : ∀ {e e' : Expr}, P e → e'.bare = e.bare → P e') (hc : c.Closings P)
    (h : d.bare = c.bare) : d.Closings P := by
  induction Alike.of_bare h with
  | done => trivial
  | op _ hrest ih => exact ih hc hrest.bare
  | loop _ he hbody hrest ihbody ihrest =>
    exact ⟨hP hc.1 he, ihbody hc.2.1 hbody.bare, ihrest hc.2.2 hrest.bare⟩

theorem Closings.ofOps (hc : c.Closings P) : (ofOps xs c).Closings P := by
  induction xs with
  | nil => exact hc
  | cons x xs ih => exact ih

theorem Closings.append (hc : c.Closings P) (hd : d.Closings P) : (c.append d).Closings P := by
  induction c with
  | done => exact hd
  | op x rest ih => exact ih hc
  | loop b e body rest _ ih => exact ⟨hc.1, hc.2.1, ih hc.2.2⟩

theorem Closings.rename {table : List (TensorId × Tensor)}
    (hP : ∀ {e : Expr}, P e → P (e.rename table))
    (hc : c.Closings P) : (c.map (Expr.rename table)).Closings P := by
  induction c with
  | done => trivial
  | op x rest ih => exact ih hc
  | loop b e body rest ihbody ihrest => exact ⟨hP hc.1, ihbody hc.2.1, ihrest hc.2.2⟩

theorem Closings.narrowed (hc : c.Closings P) (fillTails : Bool) (size : Amount) (n : TensorId) :
    (c.narrowed fillTails size n).1.Closings P := by
  induction c generalizing n with
  | done => trivial
  | op x rest ih => exact Closings.ofOps (ih hc _)
  | loop b e body rest _ ih => exact ⟨hc.1, hc.2.1, ih hc.2.2 n⟩

/-- What the closing marker of a loop has, `P`, gives those of the loops it is split into what they
    are to have, `Q`. -/
structure Parts (optimize : Bool) (P Q : Expr → Prop) : Prop where
  params : ∀ {e : Expr}, P e → ∃ l, e.loop = some l
  same : ∀ {e : Expr} {l : LoopParams}, P e → e.loop = some l → (l.isStatic = true → l.workAmount = 0) → Q e
  whole : ∀ {e : Expr} {l : LoopParams}, P e → e.loop = some l → l.isStatic = true →
    l.workAmount % l.increment = 0 → ∀ force, Q (e.withParams (l.optimized optimize force))
  shortened : ∀ {e : Expr} {l : LoopParams}, P e → e.loop = some l → l.isStatic = true →
    Q (e.withParams ((l.shortened (l.workAmount % l.increment)).optimized optimize true))
  tail : ∀ {e : Expr} {l : LoopParams}, P e → e.loop = some l → l.isStatic = true →
    l.workAmount % l.increment ≠ 0 → ∀ force,
      Q (e.withParams ((l.tail (l.workAmount % l.increment)).optimized optimize force))
  renamed : ∀ {e : Expr} (table : List (TensorId × Tensor)), Q e → Q (e.rename table)

theorem Closings.splitLoop (hparts : Parts m.config.evaluateOnce P Q) (he : P e)
    (hbody : body.Closings Q) (b : Expr)
    (out : List TensorId) (n : TensorId) : (splitLoop m b e body out n).1.Closings Q := by
  obtain ⟨l, hl⟩ := hparts.params he
  cases hstatic : l.isStatic with
  | false =>
    unfold Code.splitLoop cutLoop
    simp only [hl, hstatic, or_true, if_true]
    exact ⟨hparts.same he hl (fun h => by simp [hstatic] at h), hbody, trivial⟩
  | true =>
    rw [Code.splitLoop, cutLoop_of_static hl hstatic]
    split
    · next hidle => exact ⟨hparts.same he hl fun _ => hidle, hbody, trivial⟩
    split
    · next hdiv => exact ⟨hparts.whole he hl hstatic hdiv _, hbody, trivial⟩
    next hrest =>
    split
    · exact ⟨hparts.shortened he hl hstatic, hbody, hparts.renamed _ (hparts.tail he hl hstatic hrest _),
        Closings.narrowed (hbody.rename fun he => hparts.renamed _ he) _ _ _, trivial⟩
    · exact ⟨hparts.tail he hl hstatic hrest _, Closings.narrowed hbody _ _ _, trivial⟩

/-- What the closing markers of lowered code have. -/
theorem Closings.lower (hparts : Parts m.config.evaluateOnce P Q) (hc : c.Closings P)
    (out : List TensorId)
    (n : TensorId) : (c.lower m out n).1.Closings Q := by
  induction c generalizing out n with
  | done => trivial
  | op x rest ih => exact ih hc _ n
  | loop b e body rest ihbody ihrest =>
    obtain ⟨he, hbody, hrest⟩ := hc
    exact Closings.append (Closings.splitLoop hparts he (ihbody hbody _ n) b _ _) (ihrest hrest _ _)

end Closings

/-- The loops of the code of known size have not been split. -/
def Unsplit : Code → Prop :=
  Closings fun e => ∃ l, e.loop = some l ∧ (l.isStatic = true → e.Whole l)

/-- The loops of the code of known size have been dealt with. -/
def Rounded (optimize : Bool) : Code → Prop :=
  Closings fun e => ∃ l, e.loop = some l ∧ (l.isStatic = true → e.Rounded optimize l)

theorem Rounded.congr (hc : c.Rounded optimize) (h : d.bare = c.bare) : d.Rounded optimize := by
  refine Closings.congr (fun {e e'} he hbare => ?_) hc h
  obtain ⟨l, hl, hrounded⟩ := he
  obtain ⟨id, hl'⟩ := Expr.loop_of_bare hl hbare
  refine ⟨{ l with id }, hl', fun hstatic => ?_⟩
  obtain ⟨id', hrounded'⟩ := (hrounded hstatic).congr hbare
  obtain rfl : id' = id := by
    have hsame := hrounded'.closes.params.symm.trans hl'
    injection hsame with hsame
    injection hsame
  exact hrounded'

theorem Rounded.parts (optimize : Bool) :
    Parts optimize (fun e => ∃ l, e.loop = some l ∧ (l.isStatic = true → e.Whole l))
      fun e => ∃ l, e.loop = some l ∧ (l.isStatic = true → e.Rounded optimize l) where
  params := fun ⟨l, hl, _⟩ => ⟨l, hl⟩
  same := by
    rintro e l ⟨l', hl', hwhole⟩ hl hidle
    obtain rfl : l' = l := Option.some.inj (hl'.symm.trans hl)
    exact ⟨l', hl, fun hs => (hwhole hs).rounded_of_idle (hidle hs) _⟩
  whole := by
    rintro e l ⟨l', hl', hwhole⟩ hl hs hdiv force
    obtain rfl : l' = l := Option.some.inj (hl'.symm.trans hl)
    exact ⟨_, rfl, fun _ => (hwhole hs).rounded_optimized hdiv _ _⟩
  shortened := by
    rintro e l ⟨l', hl', hwhole⟩ hl hs
    obtain rfl : l' = l := Option.some.inj (hl'.symm.trans hl)
    exact ⟨_, rfl, fun _ => (hwhole hs).rounded_shortened _ _⟩
  tail := by
    rintro e l ⟨l', hl', hwhole⟩ hl hs hrest force
    obtain rfl : l' = l := Option.some.inj (hl'.symm.trans hl)
    exact ⟨_, rfl, fun _ => (hwhole hs).rounded_tail hrest _ _⟩
  renamed := fun table ⟨l, hl, hrounded⟩ => ⟨l, hl, fun hs => (hrounded hs).rename table⟩

/-- The loops of lowered code are rounded. -/
theorem Unsplit.lower (hc : c.Unsplit) (m : Kernel) (out : List TensorId) (n : TensorId) :
    (c.lower m out n).1.Rounded m.config.evaluateOnce :=
  Closings.lower (Rounded.parts _) hc out n

/-! ## Shares -/

/-- The second code does the work of the first one: it has the same expressions, except for fills,
    and for each loop one loop with the same amount of work or two which share it out, and they do
    the work of its body. -/
inductive SharedOut : Code → Code → Prop
  | done : SharedOut done done
  | fill {f : Expr} {c c' : Code} (kind : f.kind = .fill) (rest : SharedOut c c') : SharedOut c (op f c')
  | op {x x' : Expr} {c c' : Code} (kind : x'.kind = x.kind) (same : x'.op = x.op) (rest : SharedOut c c') :
      SharedOut (op x c) (op x' c')
  | whole {b e b' e' : Expr} {l l' : LoopParams} {body body' c c' : Code} (params : e.loop = some l)
      (params' : e'.loop = some l') (work : l'.workAmount = l.workAmount) (inside : SharedOut body body')
      (rest : SharedOut c c') : SharedOut (loop b e body c) (loop b' e' body' c')
  | split {b e b1 e1 b2 e2 : Expr} {l l1 l2 : LoopParams} {body body1 body2 c c' : Code} (params : e.loop = some l)
      (params1 : e1.loop = some l1) (params2 : e2.loop = some l2)
      (work : l1.workAmount.toInt + l2.workAmount.toInt = l.workAmount.toInt) (inside1 : SharedOut body body1)
      (inside2 : SharedOut body body2) (rest : SharedOut c c') :
      SharedOut (loop b e body c) (loop b1 e1 body1 (loop b2 e2 body2 c'))

end Code

/-! ## Splitting again -/

namespace Tails

variable {k : Kernel} {e : Expr} {l : LoopParams}

/-- Giving a marker the parameters it has changes nothing. -/
theorem modify_loop_self {e : ExprId} (hl : (k.expr e).loop = some l) :
    Edit.modifyExpr e (fun x => { x with loop := some l }) k = .ok ⟨⟩ k := by
  have hself : ∀ x : Expr, x.loop = some l → { x with loop := some l } = x := fun x hx => by rw [← hx]
  have hexprs : k.exprs.modify e (fun x => { x with loop := some l }) = k.exprs := by
    apply Array.ext (by simp)
    intro i hi hi'
    rw [Array.getElem_modify]
    split
    · next heq =>
        subst heq
        have hread : k.expr e = k.exprs[e] := by
          rw [Kernel.expr, Array.getD_eq_getD_getElem?, Array.getElem?_eq_getElem hi', Option.getD_some]
        exact hself _ (hread ▸ hl)
    · rfl
  exact congrArg (fun exprs => EStateM.Result.ok PUnit.unit { k with exprs }) hexprs

theorem onParams_same {α : Type} {a : α} {e : ExprId} {step : EStateM Failure LoopParams α}
    (hl : (k.expr e).loop = some l) (hstep : step l = .ok a l) : onParams e step k = .ok a k := by
  have hask : Edit.ask (fun k => (k.expr e).params) k = .ok l k := by
    refine Edit.ask_run_ok ?_
    rw [Expr.params, hl]
  unfold onParams
  rw [bind_run_ok hask, hstep]
  exact bind_run_ok (modify_loop_self hl)

/-- A rounded loop stays as it is. -/
theorem split_rounded (hread : k.expr e.id = e) (hl : e.loop = some l)
    (hrounded : l.isStatic = true → e.Rounded k.config.evaluateOnce l) : ∃ changed, split e.id k = .ok changed k := by
  have hparams : Edit.ask (fun k => (k.expr e.id).params) k = .ok l k := by
    refine Edit.ask_run_ok ?_
    rw [hread, Expr.params, hl]
  unfold split
  rw [bind_run_ok hparams]
  by_cases hskip : (l.once || l.workAmount = 0 || !l.isStatic) = true
  · rw [if_pos hskip]
    exact ⟨false, rfl⟩
  rw [if_neg hskip]
  simp only [Bool.or_eq_true, decide_eq_true_eq, Bool.not_eq_true', not_or, Bool.not_eq_true,
    Bool.not_eq_false] at hskip
  obtain ⟨⟨honce, hwork⟩, hstatic⟩ := hskip
  have he := hrounded hstatic
  have hsize : Edit.ask (fun _ => remainder l.workAmount l.increment) k = .ok 0 k := by
    refine Edit.ask_run_ok ?_
    have hne : l.increment ≠ 0 := fun h => by have := he.step; rw [h] at this; exact absurd this (by decide)
    rw [remainder, if_neg hne, he.divides]
  have htouches : Edit.ask (fun k => touchesBuffer k (k.expr e.id) l) k = .ok (k.touches e l) k := by
    refine Edit.ask_run_ok ?_
    rw [hread]
    exact he.closes.touchesBuffer he.entries he.operands k
  rw [bind_run_ok hsize, bind_run_ok htouches]
  have hvector : ∀ touches, buildVector e.id l 0 touches k = .ok ⟨⟩ k := by
    intro touches
    have hoptimize : optimize e.id touches k = .ok ⟨⟩ k := by
      unfold optimize
      rw [get_bind_run]
      split
      · next hon =>
          have hruns := he.stays hwork honce
          rw [hon] at hruns
          have hstep := LoopParams.evaluateOnce_run
            (Nat.le_of_eq (he.closes.offsets.trans he.closes.steps.symm)) touches
          rw [LoopParams.optimized_of_not_runsOnce hruns] at hstep
          exact bind_run_ok (onParams_same (by rw [hread, hl]) hstep)
      · rfl
    exact hoptimize
  refine ⟨true, ?_⟩
  split
  · exact (bind_run_ok (hvector _)).trans rfl
  · rfl

theorem visit_rounded (hread : k.expr e.id = e) (hrounded : e.kind = .loopEnd →
    ∃ l, e.loop = some l ∧ (l.isStatic = true → e.Rounded k.config.evaluateOnce l)) (modified : Bool) :
    ∃ changed, visit modified e.id k = .ok changed k := by
  unfold visit
  rw [get_bind_run, hread]
  split
  · exact ⟨modified, rfl⟩
  · next hkind =>
      obtain ⟨l, hl, hstatic⟩ := hrounded (not_not.1 hkind)
      obtain ⟨changed, hrun⟩ := split_rounded hread hl hstatic
      exact ⟨modified || changed, bind_run_ok hrun⟩

/-- Where all loops are rounded, splitting tails gives the same kernel. -/
theorem run_rounded (hk : k.Lists xs) (hrounded : ∀ e ∈ xs, e.kind = .loopEnd →
    ∃ l, e.loop = some l ∧ (l.isStatic = true → e.Rounded k.config.evaluateOnce l)) :
    ∃ changed, run k = .ok changed k := by
  have hall : ∀ modified, ∃ changed, (xs.map Expr.id).foldlM visit modified k = .ok changed k := by
    have hread := hk.read
    clear hk
    induction xs with
    | nil => exact fun modified => ⟨modified, rfl⟩
    | cons x xs ih =>
      intro modified
      obtain ⟨first, hfirst⟩ := visit_rounded (hread x List.mem_cons_self) (hrounded x List.mem_cons_self) modified
      obtain ⟨changed, hrun⟩ := ih (fun e he => hrounded e (List.mem_cons_of_mem x he))
        (fun e he => hread e (List.mem_cons_of_mem x he)) first
      exact ⟨changed, (bind_run_ok hfirst).trans hrun⟩
  unfold run
  rw [get_bind_run, hk.order]
  exact hall false

end Tails

end KernelLoops
