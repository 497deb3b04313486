import KernelLoops.Proofs.NestJourneys

set_option autoImplicit false

/-! # Painting

The loops of a kernel fill blocks of memory piece by piece: each body writes the wanted values into
some cells and reads blocks that nothing writes meanwhile. Such pieces do not disturb each other, so
what they leave together is known from the cells that each one hits (`Paints.of_jobs`). -/

namespace KernelLoops

variable {c d : Code} {L : Layout} {q : Shift}

variable {α : Type}

/-- What is to be painted: the blocks that are written, the values they are to hold, and the picture
    to start from. -/
structure Canvas (α : Type) where
  want : Nat → Nat → α
  source : Picture α
  target : Nat → Prop

/-- Running the stops writes the wanted values into the cells that are hit, and into no other cell
    of a block. -/
def Paints (A : Arithmetic α) (L : Layout) (K : Canvas α) (q : Shift) (stops : List (Shift × Expr))
    (hit : Nat → Nat → Prop) : Prop :=
  ∃ σ, Leads A L q stops K.source σ ∧ K.source.Becomes σ hit K.want

namespace Paints

variable {A : Arithmetic α} {K : Canvas α} {stops : List (Shift × Expr)}
  {hit hit' : Nat → Nat → Prop}

theorem congr (h : Paints A L K q stops hit) (heq : ∀ b i, hit b i ↔ hit' b i) :
    Paints A L K q stops hit' := by
  obtain ⟨σ, hleads, hbecomes⟩ := h
  exact ⟨σ, hleads, hbecomes.congr heq⟩

/-- Jobs that work paint what their stores hit. -/
theorem of_jobs {jobs : List Job} (h : ∀ j ∈ jobs, j.Works A L q K.want K.source K.target) :
    Paints A L K q (jobs.flatMap Job.stops) fun b i => ∃ j ∈ jobs, hits L (q + j.shift) j.count j.body b i :=
  Job.leads h fun _ _ => rfl

/-- What does nothing, before and behind what paints, does not show. -/
theorem between_idle (h : Paints A L K q stops hit) (before behind : List (Shift × Expr))
    (hbefore : ∀ s ∈ before, s.2.kind = .parameter) (hbehind : ∀ s ∈ behind, s.2.kind = .result) :
    Paints A L K q (before ++ (stops ++ behind)) hit := by
  have hidle : ∀ (xs : List (Shift × Expr)) (σ : Picture α),
      (∀ s ∈ xs, s.2.kind = .parameter ∨ s.2.kind = .result) → Leads A L q xs σ σ := by
    intro xs σ hxs
    induction xs with
    | nil => exact .nil σ
    | cons s xs ih =>
      refine .cons (.idle ?_) (ih fun s' hs' => hxs s' (List.mem_cons_of_mem s hs'))
      exact (hxs s List.mem_cons_self).imp_right .inl
  obtain ⟨σ, hleads, hbecomes⟩ := h
  refine ⟨σ, (hidle before _ fun s hs => .inl (hbefore s hs)).append (hleads.append ?_), hbecomes⟩
  exact hidle behind σ fun s hs => .inr (hbehind s hs)

end Paints

/-! ## Numbers, tags and names of loops -/

namespace Expr

/-- What an expression does does not depend on numbers, tags and names of loops. -/
theorem Acts.congr {A : Arithmetic α} {x y : Expr} {σ σ' : Picture α} (h : x.Acts A L q σ σ')
    (hbare : x.bare = y.bare) : y.Acts A L q σ σ' := by
  rw [eq_of_bare hbare]
  cases h with
  | idle kind => exact .idle kind
  | load kind input output count opens => exact .load kind input output count opens
  | broadcast kind input output opens => exact .broadcast kind input output opens
  | fill kind input output count value => exact .fill kind input output count value
  | unary kind input output op value => exact .unary kind input output op value
  | binary kind input output op value value' => exact .binary kind input output op value value'
  | store kind input output count narrow opens value =>
    exact .store kind input output count narrow opens value

end Expr

namespace Journey

/-- The journey without numbers, tags and names of loops. -/
def bare (J : Journey) : Journey := ⟨J.stops.map fun s => (s.1, s.2.bare), J.net⟩

theorem bare_mul (J K : Journey) : (J * K).bare = J.bare * K.bare := by
  ext1
  · simp [bare, moved]
  · rfl

theorem bare_pow (J : Journey) (n : Nat) : (J ^ n).bare = J.bare ^ n := by
  induction n with
  | zero => rfl
  | succ n ih => rw [pow_succ, pow_succ, bare_mul, ih]

end Journey

theorem LoopParams.bare_journey (l : LoopParams) (id : LoopId) (operands : List Tensor)
    (J : Journey) :
    ({ l with id } : LoopParams).journey operands J.bare = (l.journey operands J).bare := by
  simp only [LoopParams.journey, Journey.bare_mul]
  refine congrArg₂ (· * ·) ?_ rfl
  show (if l.once then J.bare else _) = _
  split
  · rfl
  · rw [Journey.bare_pow, Journey.bare_mul]
    rfl

/-- The journey of code does not depend on numbers, tags and names of loops. -/
theorem Code.journey_bare (c : Code) : c.bare.journey = c.journey.bare := by
  induction c with
  | done => rfl
  | op x rest ih =>
    show Journey.stop x.bare * rest.bare.journey = (Journey.stop x * rest.journey).bare
    rw [ih, Journey.bare_mul]
    rfl
  | loop b e body rest ihbody ihrest =>
    rw [Code.bare_loop, Code.journey, ihbody, ihrest, Code.journey, Journey.bare_mul]
    refine congrArg (· * _) ?_
    cases hl : e.loop with
    | none =>
      simp only [Expr.bare, hl, Option.map_none]
      rfl
    | some l =>
      simp only [Expr.bare, hl, Option.map_some]
      exact l.bare_journey 0 e.inputs body.journey

theorem Leads.congr {A : Arithmetic α} {stops stops' : List (Shift × Expr)} {σ σ' : Picture α}
    (h : Leads A L q stops σ σ') (hbare : stops.map (fun s => (s.1, s.2.bare)) = stops'.map fun s => (s.1, s.2.bare)) :
    Leads A L q stops' σ σ' := by
  induction h generalizing stops' with
  | nil σ =>
    obtain rfl := List.map_eq_nil_iff.1 hbare.symm
    exact .nil σ
  | @cons d x stops σ σ1 σ2 first rest ih =>
    cases stops' with
    | nil => cases hbare
    | cons s stops' =>
      obtain ⟨d', x'⟩ := s
      obtain ⟨hhead, htail⟩ := List.cons.inj hbare
      obtain ⟨rfl, hx⟩ := Prod.mk.inj hhead
      exact .cons (first.congr hx) (ih htail)

theorem Paints.of_bare {A : Arithmetic α} {K : Canvas α} {stops stops' : List (Shift × Expr)}
    {hit : Nat → Nat → Prop}
    (h : Paints A L K q stops hit)
    (hbare : stops.map (fun s => (s.1, s.2.bare)) = stops'.map fun s => (s.1, s.2.bare)) :
    Paints A L K q stops' hit := by
  obtain ⟨σ, hleads, hbecomes⟩ := h
  exact ⟨σ, hleads.congr hbare, hbecomes⟩

namespace Code

/-- The two loops of code that is alike but for numbers, tags and names. -/
theorem params_of_bare {e e' : Expr} (h : e.bare = e'.bare) {l : LoopParams} (hl : e.loop = some l) :
    ∃ id, e'.loop = some { l with id } ∧ e'.inputs = e.inputs := by
  have hloop : e'.bare.loop = e.bare.loop := by rw [h]
  have hin : e'.bare.inputs = e.bare.inputs := by rw [h]
  simp only [Expr.bare, hl, Option.map_some] at hloop
  obtain ⟨l', hl', hsame⟩ := Option.map_eq_some_iff.1 hloop
  refine ⟨l'.id, hl'.trans (congrArg some ?_), hin⟩
  exact congrArg (fun p : LoopParams => { p with id := l'.id }) hsame

/-- The stops of code between expressions that are in no loop. -/
theorem stops_between (xs : List Expr) (c : Code) (ys : List Expr) :
    (ofOps xs (c.append (ofOps ys done))).journey.stops =
      xs.map (fun x => (0, x)) ++ (c.journey.stops ++ ys.map fun x => (c.journey.net, x)) := by
  have hfront : ofOps xs (c.append (ofOps ys done)) = (ofOps xs done).append (c.append (ofOps ys done)) :=
    (append_ofOps xs done _).symm
  rw [hfront, journey_append, journey_append, journey_ofOps, journey_ofOps]
  simp [Journey.moved, Journey.shift_add_zero, Journey.shift_zero_add]

theorem journey_congr (h : c.bare = d.bare) : c.journey.bare = d.journey.bare := by
  rw [← journey_bare, h, journey_bare]

/-- Turning at a loop does not depend on numbers, tags and names of loops. -/
theorem Turns.of_bare (h : c.Turns L) (hbare : c.bare = d.bare) : d.Turns L := by
  induction Alike.of_bare hbare with
  | done => trivial
  | @op _ _ _ rest' _ hrest ih =>
    have hrest' : rest'.Turns L := ih h hrest.bare
    exact hrest'
  | loop _ he hbody hrest ihbody ihrest =>
    obtain ⟨⟨l, hl⟩, hturns, hturns'⟩ := h
    obtain ⟨id, hloop, hin⟩ := params_of_bare he hl.closes.params
    refine ⟨⟨{ l with id }, ?_⟩, ihbody hturns hbody.bare, ihrest hturns' hrest.bare⟩
    obtain ⟨⟨_, hstatic, hsteps, hoffsets, hinputs⟩, hstep, hfew, hknown⟩ := hl
    exact ⟨⟨hloop, hstatic, hsteps, hoffsets, hin ▸ hinputs⟩, hstep, hfew, hin ▸ hknown⟩

end Code

end KernelLoops
