import KernelLoops.Proofs.Pictures

set_option autoImplicit false

/-! # Making journeys

A machine that shows a picture makes the journey of its code (`Machine.Does.run`): at each stop the
expression acts on the picture, and between them positions move. So nothing said about journeys has
to look at loops again. -/

namespace KernelLoops

open List

/-! ## Making a journey -/

/-- Running the stops one after the other, the tensors standing at positions counted from `q`, takes
    one picture to another. -/
inductive Leads {α : Type} (A : Arithmetic α) (L : Layout) (q : Shift) :
    List (Shift × Expr) → Picture α → Picture α → Prop
  | nil (σ : Picture α) : Leads A L q [] σ σ
  | cons {d : Shift} {x : Expr} {stops : List (Shift × Expr)} {σ σ1 σ2 : Picture α} (first : x.Acts A L (q + d) σ σ1)
      (rest : Leads A L q stops σ1 σ2) : Leads A L q ((d, x) :: stops) σ σ2

namespace Leads

variable {α : Type} {A : Arithmetic α} {L : Layout} {q : Shift} {stops stops' : List (Shift × Expr)}
  {σ σ1 σ2 : Picture α}

theorem append (h : Leads A L q stops σ σ1) (h' : Leads A L q stops' σ1 σ2) :
    Leads A L q (stops ++ stops') σ σ2 := by
  induction h with
  | nil σ => exact h'
  | cons first _ ih => exact .cons first (ih h')

theorem of_append (h : Leads A L q (stops ++ stops') σ σ2) :
    ∃ σ1, Leads A L q stops σ σ1 ∧ Leads A L q stops' σ1 σ2 := by
  induction stops generalizing σ with
  | nil => exact ⟨σ, .nil σ, h⟩
  | cons s stops ih =>
    cases h with
    | cons first rest =>
      obtain ⟨σ1, h1, h2⟩ := ih rest
      exact ⟨σ1, .cons first h1, h2⟩

theorem moved_iff (d : Shift) : Leads A L q (Journey.moved d stops) σ σ1 ↔
    Leads A L (q + d) stops σ σ1 := by
  constructor
  · intro h
    induction stops generalizing σ with
    | nil =>
      cases h
      exact .nil _
    | cons s stops ih =>
      cases h with
      | cons first rest =>
        rw [← Journey.shift_add_assoc] at first
        exact .cons first (ih rest)
  · intro h
    induction h with
    | nil σ => exact .nil σ
    | cons first _ ih =>
      rw [Journey.shift_add_assoc] at first
      exact .cons first ih

end Leads

namespace Machine

variable {α : Type} {A : Arithmetic α} {L : Layout}

/-- From every picture that the journey leads somewhere, the step gets there. -/
def Does (A : Arithmetic α) (L : Layout) (step : Step α Unit) (J : Journey) : Prop :=
  ∀ q σ σ' (m : Machine α), m.Shows A L q σ → Leads A L q J.stops σ σ' →
    ∃ m', step m = .ok () m' ∧ m'.Shows A L (q + J.net) σ'

namespace Does

variable {step next : Step α Unit} {J K : Journey}

theorem pure : Does A L (Pure.pure ()) 1 := by
  intro q σ σ' m h hleads
  cases hleads
  exact ⟨m, rfl, (Journey.shift_add_zero q).symm ▸ h⟩

theorem bind (hstep : Does A L step J) (hnext : Does A L next K) :
    Does A L (do step; next) (J * K) := by
  intro q σ σ' m h hleads
  obtain ⟨σ1, h1, h2⟩ := Leads.of_append hleads
  obtain ⟨m1, hrun1, hshows1⟩ := hstep q σ σ1 m h h1
  obtain ⟨m2, hrun2, hshows2⟩ := hnext (q + J.net) σ1 σ' m1 hshows1 ((Leads.moved_iff J.net).1 h2)
  exact ⟨m2, (bind_run_ok hrun1).trans hrun2, Journey.shift_add_assoc q J.net K.net ▸ hshows2⟩

theorem congr (hstep : Does A L step J) (h : J = K) : Does A L step K := h ▸ hstep

/-- Doing a step over and over is a power of its journey. -/
theorem repeatM (hstep : Does A L step J) (n : Nat) :
    Does A L (KernelLoops.repeatM n step) (J ^ n) := by
  induction n with
  | zero => exact pure.congr (pow_zero J).symm
  | succ n ih => exact (hstep.bind ih).congr (pow_succ' J n).symm

theorem runExpr (x : Expr) : Does A L (runExpr A x) (.stop x) := by
  intro q σ σ' m h hleads
  cases hleads with
  | cons first rest =>
    cases rest
    rw [Journey.shift_add_zero] at first
    exact (Journey.shift_add_zero q).symm ▸ h.runExpr first

end Does

/-! ## Moving -/

/-- Moving one tensor. -/
theorem Shows.move {q : Shift} {σ : Picture α} {m : Machine α} {t : TensorId} {b : Nat}
    (h : m.Shows A L q σ)
    (hb : L.home t = some b) (step : Amount) :
    (m.bind t ⟨b, q t + step, false⟩).Shows A L (q + fun u => if t = u then step else 0) σ := by
  refine ⟨h.lanes, h.room, h.cells, fun u c hu => ?_, h.registers⟩
  obtain ⟨hlt, hbound⟩ := h.bound u c hu
  refine ⟨hlt, ?_⟩
  show (put t _ m.bindings).lookup u = some ⟨c, q u + (if t = u then step else 0), false⟩
  by_cases hut : u = t
  · subst hut
    rw [lookup_put_self, if_pos rfl, Option.some.inj (hb.symm.trans hu)]
  · rw [lookup_put_of_ne _ _ hut, hbound, if_neg (Ne.symm hut), Int64.add_zero]

/-- The operands of a closing marker are moved one after the other. -/
theorem Does.countM_advance {e : Expr} (offsets steps : List Amount) (ts : List Tensor) (start : Nat)
    (hinputs : ∀ i, e.inputs[start + i]? = ts[i]?) (hlen : steps.length ≤ ts.length)
    (hknown : ∀ t ∈ ts.take steps.length, (L.home t.id).isSome)
    (hoffsets : ∀ i p, steps[i]? = some p → offsets[start + i]? = some p) :
    Does A L (countM start steps.length fun i => do
        let t ← lift (e.input i)
        let b ← locate t
        let step ← lift (fetch offsets i)
        modify fun m => m.bind t.id { b with position := b.position + step })
      (.move fun T => shift T ts steps) := by
  induction steps generalizing start ts with
  | nil =>
    refine Does.pure.congr ?_
    cases ts <;> rfl
  | cons p ps ih =>
    obtain ⟨t, us, rfl⟩ : ∃ t us, ts = t :: us := by
      cases ts with
      | nil => exact absurd hlen (Nat.not_succ_le_zero _)
      | cons t us => exact ⟨t, us, rfl⟩
    have hrest := ih us (start + 1)
      (fun i => by rw [show start + 1 + i = start + (i + 1) by omega]; exact hinputs (i + 1))
      (Nat.le_of_succ_le_succ hlen)
      (fun u hu => hknown u (by rw [length_cons, take_succ_cons]; exact mem_cons_of_mem t hu))
      (fun i r hr => by
        rw [show start + 1 + i = start + (i + 1) by omega]
        exact hoffsets (i + 1) r hr)
    rw [length_cons, countM]
    have hone : Does A L (do
        let u ← lift (e.input start)
        let b ← locate u
        let step ← lift (fetch offsets start)
        modify fun m => m.bind u.id { b with position := b.position + step })
        (.move fun T => if t.id = T then p else 0) := by
      intro q σ σ' m h hleads
      cases hleads
      obtain ⟨b, hb⟩ := Option.isSome_iff_exists.1
        (hknown t (by rw [length_cons, take_succ_cons]; exact mem_cons_self))
      have hfirst : lift (e.input start) m = .ok t m := by
        rw [show e.input start = .ok t from fetch_eq_ok_iff.2 (hinputs 0)]
        rfl
      have hstep : lift (fetch offsets start) m = .ok p m := by
        rw [show fetch offsets start = .ok p from fetch_eq_ok_iff.2 (hoffsets 0 p rfl)]
        rfl
      rw [bind_run_ok hfirst, bind_run_ok (h.locate hb), bind_run_ok hstep]
      exact ⟨_, rfl, h.move hb p⟩
    refine (hone.bind hrest).congr ?_
    rw [Journey.move_mul_move]
    rfl

end Machine

/-- A closing marker that a machine can turn at: its steps and offsets are there, its increment is
    positive, and each of its operands can be found. -/
structure Expr.Turns (L : Layout) (e : Expr) (l : LoopParams) : Prop where
  closes : e.Closes l
  step : 0 < l.increment
  few : storage 8 l.numOperands = .ok l.numOperands.trips
  known : ∀ t ∈ e.inputs.take l.numOperands.trips, (L.home t.id).isSome

/-- Every loop of the code can be turned. -/
def Code.Turns (L : Layout) : Code → Prop
  | .done => True
  | .op _ rest => rest.Turns L
  | .loop _ e body rest => (∃ l, e.Turns L l) ∧ body.Turns L ∧ rest.Turns L

namespace Machine

variable {α : Type} {A : Arithmetic α} {L : Layout} {e : Expr} {l : LoopParams}

theorem Does.advance (he : e.Turns L l) {steps : List Amount}
    (hsteps : steps.length = l.numOperands.trips) :
    Does A L (advance e l steps) (.move fun T => shift T e.inputs steps) := by
  have h := Does.countM_advance (A := A) (L := L) steps steps e.inputs 0 (fun i => by rw [Nat.zero_add])
    (hsteps ▸ he.closes.inputs) (hsteps ▸ he.known) fun i p hp => by rw [Nat.zero_add]; exact hp
  rw [hsteps] at h
  exact h

/-- Running the bodies of some amount of work. -/
theorem Does.iterate (he : e.Turns L l) (work : Amount) {body : Step α Unit} {J : Journey}
    (hbody : Does A L body J) :
    Does A L (iterate e l work body) ((J * .move (l.stepShift e.inputs)) ^ (work / l.increment).trips) := by
  have hsteps : ((l.ptrIncrements.take l.numOperands.trips).map (· * l.increment)) =
      l.ptrIncrements.map (· * l.increment) := by
    rw [take_of_length_le (Nat.le_of_eq he.closes.steps)]
  have hquotient : quotient work l.increment = .ok (work / l.increment) := by
    rw [quotient, if_neg]
    intro hzero
    have hstep := he.step
    rw [hzero] at hstep
    exact absurd hstep (by decide)
  have hadvance : Does A L (Machine.advance e l (l.ptrIncrements.map (· * l.increment)))
      (.move (l.stepShift e.inputs)) := Does.advance he (by rw [length_map, he.closes.steps])
  have hrepeat := (hbody.bind hadvance).repeatM (work / l.increment).trips
  unfold Machine.iterate
  rw [he.few, hquotient]
  simp only [lift, pure_bind, he.closes.steps, Nat.lt_irrefl, if_false, hsteps]
  exact hrepeat

/-- What a loop does, given what its body does. -/
theorem Does.runLoop (he : e.Turns L l) {body : Step α Unit} {J : Journey}
    (hbody : Does A L body J) :
    Does A L (runLoop e body) (l.journey e.inputs J) := by
  have hreset : Does A L (Machine.advance e l l.finalOffsets) (.move (l.resetShift e.inputs)) :=
    Does.advance he he.closes.offsets
  unfold Machine.runLoop LoopParams.journey
  simp only [Expr.params, he.closes.params, lift, pure_bind]
  by_cases honce : l.once
  · simp only [honce, if_true]
    exact hbody.bind hreset
  · have hcount : l.bodyCount = (l.workAmount / l.increment).trips := by
      rw [LoopParams.bodyCount, if_neg honce, if_pos he.step]
    simp only [honce, Bool.false_eq_true, if_false, hcount]
    exact (Does.iterate he l.workAmount hbody).bind hreset

/-- A machine that runs code on its own makes the journey of the code. -/
theorem Does.run {c : Code} (hc : c.Turns L) : Does A L (c.run (alone A)) c.journey := by
  induction c with
  | done => exact Does.pure
  | op x rest ih => exact (Does.runExpr x).bind (ih hc)
  | loop b e body rest ihbody ihrest =>
    obtain ⟨⟨l, hl⟩, hbody, hrest⟩ := hc
    rw [Code.journey, hl.closes.params]
    exact (Does.runLoop hl (ihbody hbody)).bind (ihrest hrest)

end Machine

end KernelLoops
