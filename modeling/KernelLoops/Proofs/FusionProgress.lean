import KernelLoops.Proofs.Built
import KernelLoops.Proofs.Schedule

set_option autoImplicit false

/-! # Progress of fusion

A run of the fusion pass that reports no change has changed nothing, and each change it reports has
dropped a loop from the table. So the pass reaches a fixed point when it is run over and over, after
at most as many runs as there are loops. One run is not always enough: a loop that is moved away
late may have kept two others apart when the scan met them. -/

namespace KernelLoops

open List

variable {k1 : Kernel} {info : LoopInfo} {answer modified : Bool} {n : Nat}
  {previous : Option (List LoopId)}
  {e : Option ExprId} {exit : Port}

namespace LoopTable

variable {t : LoopTable} {id : LoopId}

theorem size_modify (t : LoopTable) (id : LoopId) (f : LoopInfo → LoopInfo) :
    (t.modify id f).size = t.size := by
  simp [size, modify]

theorem mem_of_get? (h : t.get? id = some info) : (id, info) ∈ t.entries := by
  revert h
  unfold get?
  induction t.entries with
  | nil => intro h; cases h
  | cons e rest ih =>
    intro h
    obtain ⟨i, l⟩ := e
    rw [lookup_cons] at h
    split at h
    · next heq =>
        cases h
        rw [beq_iff_eq.1 heq]
        exact mem_cons_self
    · exact mem_cons_of_mem _ (ih h)

theorem get?_erase (t : LoopTable) (id i : LoopId) :
    (t.erase id).get? i = if i = id then none else t.get? i := by
  simp only [get?, erase]
  induction t.entries with
  | nil => simp
  | cons p rest ih =>
    obtain ⟨j, l⟩ := p
    rw [filter_cons]
    split
    · next hj =>
        rw [lookup_cons, lookup_cons, ih]
        by_cases hij : i = j
        · have hne : j ≠ id := by simpa using hj
          simp [hij, hne]
        · rw [beq_eq_false_iff_ne.2 hij]
    · next hj =>
        have hj : j = id := by simpa using hj
        rw [ih, lookup_cons, hj]
        split
        · rfl
        · next hi => rw [beq_eq_false_iff_ne.2 hi]

/-- Dropping a registered loop leaves fewer loops. -/
theorem size_erase_lt (h : (t.get? id).isSome) : (t.erase id).size < t.size := by
  obtain ⟨info, hinfo⟩ := Option.isSome_iff_exists.1 h
  exact length_filter_lt_length_iff_exists.2 ⟨(id, info), mem_of_get? hinfo, by simp⟩

theorem isSome_of_info (h : t.info id = .ok info) : (t.get? id).isSome := by
  rw [info_eq_ok.1 h]
  rfl

theorem size_pos (h : (t.get? id).isSome) : 0 < t.size := by
  obtain ⟨info, hinfo⟩ := Option.isSome_iff_exists.1 h
  exact length_pos_of_mem (mem_of_get? hinfo)

end LoopTable

namespace Fusion

open Edit

/-! ## Steps that leave the table of loops alone -/

theorem loops_modifyExpr (loops : LoopTable) (e : ExprId) (f : Expr → Expr) :
    Keeps (fun k : Kernel => k.loops = loops) (modifyExpr e f) :=
  fun _ h => h

theorem loops_setLoopId (loops : LoopTable) (e : ExprId) (id : LoopId) (depth : Amount) :
    Keeps (fun k : Kernel => k.loops = loops) (setLoopId e id depth) :=
  .bind (keeps_ask _) fun _ => loops_modifyExpr loops e _

theorem loops_link (loops : LoopTable) (e : ExprId) (mark : Option ExprId) :
    Keeps (fun k : Kernel => k.loops = loops) (link e mark) := by
  cases mark with
  | none => exact fun _ h => h
  | some m => exact .bind (keeps_requireAttached m) fun _ => fun _ h => h

theorem loops_move (loops : LoopTable) (e : ExprId) (mark : Option ExprId) :
    Keeps (fun k : Kernel => k.loops = loops) (move e mark) := by
  refine .bind (keeps_requireAttached e) fun _ => ?_
  refine .ite (.bind (fun _ h => h) fun _ => loops_link loops e mark) (.pure _)

theorem loops_takeIn (loops : LoopTable) (id : LoopId) (level : Nat) (stop place : Option ExprId)
    (moving : Bool)
    (budget : Nat) (e : Option ExprId) :
    Keeps (fun k : Kernel => k.loops = loops) (takeIn id level stop place moving budget e) := by
  induction budget generalizing e with
  | zero =>
    unfold takeIn
    refine .ite (.pure _) ?_
    cases e <;> exact .throw _
  | succ budget ih =>
    unfold takeIn
    refine .ite (.pure _) ?_
    cases e with
    | none => exact .throw _
    | some x =>
      refine .get_bind fun k _ => .bind (loops_setLoopId loops x id _) fun _ => ?_
      split
      · exact .bind (loops_move loops x place) fun _ => ih (k.next? x)
      · exact ih (k.next? x)

/-! ## What taking in a loop does to the table -/

/-- Nothing was changed, or the loop `id` was changed and `target` is registered as well. -/
def TookIn (id target : LoopId) (k : Kernel) (r : Option Span) (k' : Kernel) : Prop :=
  r = none ∧ k' = k ∨
    r.isSome ∧ (k.loops.get? target).isSome ∧ (k.loops.get? id).isSome ∧ ∃ f, k'.loops = k.loops.modify id f

variable {k k' : Kernel} {budget level depth : Nat} {id target : LoopId} {span : Span}
  {r : Option Span}

/-- What both ways to take in a loop end with. -/
theorem of_takeIn_modifyLoop {stop place : Option ExprId} {moving : Bool} {f : LoopInfo → LoopInfo}
    {a : Option Span}
    (h : (do takeIn id level stop place moving budget e
             modifyLoop id f
             return a : Edit (Option Span)) k = .ok r k') : r = a ∧ k'.loops = k.loops.modify id f := by
  obtain ⟨_, k1, htake, h⟩ := of_bind_run_ok h
  cases h
  have hloops := loops_takeIn k.loops id level stop place moving budget e k rfl
  rw [htake] at hloops
  exact ⟨rfl, congrArg (LoopTable.modify · id f) hloops⟩

theorem of_fuseProducer_ok {entry : Port}
    (h : fuseProducer budget entry id target level span k = .ok r k') :
    TookIn id target k r k' := by
  unfold fuseProducer at h
  obtain ⟨other, hother, h⟩ := of_ask_bind_run_ok h
  obtain ⟨current, hcurrent, h⟩ := of_ask_bind_run_ok h
  split at h
  · cases h
    exact .inl ⟨rfl, rfl⟩
  · obtain ⟨bounds, -, h⟩ := of_ask_bind_run_ok h
    obtain ⟨fits, -, h⟩ := of_ask_bind_run_ok h
    split at h
    · cases h
      exact .inl ⟨rfl, rfl⟩
    · obtain ⟨boundary, -, h⟩ := of_ask_bind_run_ok h
      obtain ⟨rfl, hloops⟩ := of_takeIn_modifyLoop h
      exact .inr ⟨rfl, LoopTable.isSome_of_info hother, LoopTable.isSome_of_info hcurrent, _, hloops⟩

theorem of_fuseConsumer_ok (h : fuseConsumer budget exit id target level span k = .ok r k') :
    TookIn id target k r k' := by
  unfold fuseConsumer at h
  obtain ⟨other, hother, h⟩ := of_ask_bind_run_ok h
  obtain ⟨current, hcurrent, h⟩ := of_ask_bind_run_ok h
  split at h
  · cases h
    exact .inl ⟨rfl, rfl⟩
  · obtain ⟨fits, -, h⟩ := of_ask_bind_run_ok h
    split at h
    · cases h
      exact .inl ⟨rfl, rfl⟩
    · obtain ⟨bounds, -, h⟩ := of_ask_bind_run_ok h
      obtain ⟨boundary, -, h⟩ := of_ask_bind_run_ok h
      obtain ⟨rfl, hloops⟩ := of_takeIn_modifyLoop h
      exact .inr ⟨rfl, LoopTable.isSome_of_info hother, LoopTable.isSome_of_info hcurrent, _, hloops⟩

/-! ## Progress -/

/-- Nothing was changed, or there are fewer loops now. The loop that took in another is still
    there. -/
def Progress (changed : Bool) (k k' : Kernel) : Prop :=
  changed = false ∧ k' = k ∨ changed = true ∧ k'.loops.size < k.loops.size ∧ 0 < k'.loops.size

theorem Progress.trans {a b : Bool} {k2 k3 : Kernel} (h : Progress a k1 k2) (h' : Progress b k2 k3) :
    Progress (a || b) k1 k3 := by
  rcases h with ⟨rfl, rfl⟩ | ⟨rfl, hlt⟩
  · exact h'
  · rcases h' with ⟨rfl, rfl⟩ | ⟨rfl, hlt', hpos⟩
    · exact .inr ⟨rfl, hlt⟩
    · exact .inr ⟨rfl, Nat.lt_trans hlt' hlt.1, hpos⟩

/-- Once the loop that was taken in is dropped, there are fewer loops. -/
theorem TookIn.progress {f : Span → Edit (Option Span)} {none' : Edit (Option Span)}
    {r1 : Option Span}
    (htook : TookIn id target k r1 k1) (hne : target ≠ id) (hnone : none' k = .ok r k' → Progress r.isSome k k')
    (hsome : ∀ {span k k' r}, f span k = .ok r k' → r = some span ∧ k' = { k with loops := k.loops.erase target })
    (h : (match r1 with
      | some span => f span
      | none => none') k1 = .ok r k') : Progress r.isSome k k' := by
  rcases htook with ⟨rfl, rfl⟩ | ⟨hr, htarget, hid, g, hloops⟩
  · exact hnone h
  · obtain ⟨span, rfl⟩ := Option.isSome_iff_exists.1 hr
    obtain ⟨rfl, rfl⟩ := hsome h
    refine .inr ⟨rfl, ?_, ?_⟩
    · rw [← LoopTable.size_modify k.loops id g, ← hloops]
      refine LoopTable.size_erase_lt ?_
      rwa [hloops, LoopTable.get?_modify, Option.isSome_map]
    · have hkept : ((k1.loops.erase target).get? id).isSome := by
        rwa [LoopTable.get?_erase, if_neg hne.symm, hloops, LoopTable.get?_modify, Option.isSome_map]
      exact LoopTable.size_pos hkept

theorem of_eraseLoop_ok {k k' : Kernel} {span : Span} {r : Option Span}
    (h : (do modify fun k : Kernel => { k with loops := k.loops.erase target }
             return some span : Edit (Option Span)) k = .ok r k') :
    r = some span ∧ k' = { k with loops := k.loops.erase target } := by
  cases h
  exact ⟨rfl, rfl⟩

theorem progress_fuseProducers {entries : List Port}
    (h : fuseProducers budget id level depth span entries k = .ok r k') : Progress r.isSome k k' := by
  induction entries with
  | nil =>
    cases h
    exact .inl ⟨rfl, rfl⟩
  | cons entry rest ih =>
    unfold fuseProducers at h
    obtain ⟨t, -, h⟩ := of_ask_bind_run_ok h
    rw [get_bind_run] at h
    cases hproducer : k.producer? t.id with
    | none =>
      rw [hproducer] at h
      exact ih h
    | some p =>
      simp only [hproducer] at h
      split at h
      · exact ih h
      · obtain ⟨target, -, h⟩ := of_ask_bind_run_ok h
        split at h
        · cases h
        · next hne =>
            split at h
            · exact ih h
            · obtain ⟨r1, k1, hfuse, h⟩ := of_bind_run_ok h
              exact (of_fuseProducer_ok hfuse).progress hne ih of_eraseLoop_ok h

theorem progress_fuseConsumersOf {consumers : List Port}
    (h : fuseConsumersOf budget id level depth span exit consumers k = .ok r k') : Progress r.isSome k k' := by
  induction consumers with
  | nil =>
    cases h
    exact .inl ⟨rfl, rfl⟩
  | cons consumer rest ih =>
    unfold fuseConsumersOf at h
    rw [get_bind_run] at h
    split at h
    · exact ih h
    · obtain ⟨target, -, h⟩ := of_ask_bind_run_ok h
      split at h
      · exact ih h
      · next hother =>
          obtain ⟨r1, k1, hfuse, h⟩ := of_bind_run_ok h
          have hne : target ≠ id := by
            rintro rfl
            simp at hother
          exact (of_fuseConsumer_ok hfuse).progress hne ih of_eraseLoop_ok h

theorem progress_fuseConsumers {exits : List Port}
    (h : fuseConsumers budget id level depth span exits k = .ok r k') : Progress r.isSome k k' := by
  induction exits with
  | nil =>
    cases h
    exact .inl ⟨rfl, rfl⟩
  | cons exit rest ih =>
    unfold fuseConsumers at h
    obtain ⟨t, -, h⟩ := of_ask_bind_run_ok h
    rw [get_bind_run] at h
    obtain ⟨r1, k1, hfuse, h⟩ := of_bind_run_ok h
    rcases progress_fuseConsumersOf hfuse with ⟨hr, rfl⟩ | ⟨hr, hlt⟩
    · rw [Option.isSome_eq_false_iff, Option.isNone_iff_eq_none] at hr
      subst hr
      exact ih h
    · obtain ⟨span', rfl⟩ := Option.isSome_iff_exists.1 hr
      cases h
      exact .inr ⟨rfl, hlt⟩

/-- The rounds around one loop: what they answer tells whether anything was changed, now or
    before. -/
theorem progress_fuseRounds {rounds : Nat}
    (h : fuseRounds budget id level depth rounds span modified k = .ok answer k') :
    ∃ changed, answer = (modified || changed) ∧ Progress changed k k' := by
  induction rounds generalizing span modified k with
  | zero => cases h
  | succ rounds ih =>
    unfold fuseRounds at h
    obtain ⟨info, -, h⟩ := of_ask_bind_run_ok h
    obtain ⟨up, k1, hup, h⟩ := of_bind_run_ok h
    have hup := progress_fuseProducers hup
    obtain ⟨info', -, h⟩ := of_ask_bind_run_ok h
    split at h
    · obtain ⟨changed, rfl, hrest⟩ := ih h
      exact ⟨up.isSome || changed, by rw [Bool.or_assoc], hup.trans hrest⟩
    · obtain ⟨down, k2, hdown, h⟩ := of_bind_run_ok h
      have hdown := progress_fuseConsumers hdown
      cases down with
      | none =>
        cases h
        rcases hdown with ⟨-, rfl⟩ | ⟨hdown, -⟩
        · exact ⟨up.isSome, rfl, hup⟩
        · cases hdown
      | some span' =>
        obtain ⟨changed, rfl, hrest⟩ := ih h
        exact ⟨true, by simp, by simpa using (hup.trans hdown).trans hrest⟩

theorem progress_fuseAt {e : ExprId} (h : fuseAt budget e previous k = .ok answer k') :
    Progress answer k k' := by
  unfold fuseAt at h
  rw [get_bind_run] at h
  obtain ⟨first, -, h⟩ := of_ask_bind_run_ok h
  -- levels that were done before may have answered already
  suffices hlevels : ∀ (levels : List Nat) (modified : Bool) (k1 : Kernel),
      levels.foldlM (fun modified (level : Nat) => (do
        let id ← ask fun k => fetch (k.expr e).loopIds level
        if id.isSentinel then return modified
        let changed ← fuseAround budget id level (k.expr e).loopIds.length
        return modified || changed : Edit Bool)) modified k1 = .ok answer k' →
      ∃ changed, answer = (modified || changed) ∧ Progress changed k1 k' by
    obtain ⟨changed, rfl, hprogress⟩ := hlevels _ false k h
    exact hprogress
  intro levels
  induction levels with
  | nil =>
    intro modified k1 h
    cases h
    exact ⟨false, by simp, .inl ⟨rfl, rfl⟩⟩
  | cons level rest ih =>
    intro modified k1 h
    rw [foldlM_cons] at h
    obtain ⟨m, k2, hlevel, h⟩ := of_bind_run_ok h
    obtain ⟨changed, rfl, hrest⟩ := ih m k2 h
    obtain ⟨id, -, hlevel⟩ := of_ask_bind_run_ok hlevel
    split at hlevel
    · cases hlevel
      exact ⟨changed, rfl, hrest⟩
    · obtain ⟨here, k3, haround, hlevel⟩ := of_bind_run_ok hlevel
      cases hlevel
      unfold fuseAround at haround
      obtain ⟨info, -, haround⟩ := of_ask_bind_run_ok haround
      obtain ⟨bounds, -, haround⟩ := of_ask_bind_run_ok haround
      obtain ⟨changed', hchanged, hround⟩ := progress_fuseRounds haround
      rw [Bool.false_or] at hchanged
      subst hchanged
      exact ⟨here || changed, by rw [Bool.or_assoc], hround.trans hrest⟩

theorem progress_scan {steps : Nat} (h : scan budget steps e previous modified k = .ok answer k') :
    ∃ changed, answer = (modified || changed) ∧ Progress changed k k' := by
  induction steps generalizing e previous modified k with
  | zero =>
    cases e with
    | none =>
      cases h
      exact ⟨false, by simp, .inl ⟨rfl, rfl⟩⟩
    | some e => cases h
  | succ steps ih =>
    cases e with
    | none =>
      cases h
      exact ⟨false, by simp, .inl ⟨rfl, rfl⟩⟩
    | some e =>
      unfold scan at h
      rw [get_bind_run] at h
      split at h
      · rw [get_bind_run] at h
        exact ih h
      · obtain ⟨here, k1, hfuse, h⟩ := of_bind_run_ok h
        rw [get_bind_run] at h
        obtain ⟨changed, rfl, hrest⟩ := ih h
        exact ⟨here || changed, by rw [Bool.or_assoc], (progress_fuseAt hfuse).trans hrest⟩

/-- A run that reports no change has changed nothing, and one that reports a change leaves fewer
    loops. -/
theorem progress_run (h : run k = .ok answer k') : Progress answer k k' := by
  unfold run at h
  rw [get_bind_run] at h
  unfold fuse at h
  rw [get_bind_run] at h
  obtain ⟨changed, rfl, hprogress⟩ := progress_scan h
  exact hprogress

/-! ## Running fusion over and over -/

/-- Fuses the loops of a kernel `n` times. -/
def runs (n : Nat) : Edit Unit := repeatM n (do let _ ← run)

/-- A run without change is repeated without change. -/
theorem of_runs_fixed (hfixed : run k = .ok false k) (h : runs n k = .ok () k') : k' = k := by
  induction n with
  | zero =>
    cases h
    rfl
  | succ n ih =>
    obtain ⟨_, k1, hrun, h⟩ := of_bind_run_ok h
    rw [bind_run_ok hfixed] at hrun
    cases hrun
    exact ih h

/-- Each run that changes something drops a loop and leaves one, so they are all used up before the
    loops are. -/
theorem fixed_of_runs (hpos : 0 < k.loops.size) (hn : k.loops.size ≤ n) (h : runs n k = .ok () k') :
    run k' = .ok false k' := by
  induction n generalizing k with
  | zero => omega
  | succ n ih =>
    obtain ⟨_, k1, hrun, h⟩ := of_bind_run_ok h
    obtain ⟨answer, k2, hrun, hpure⟩ := of_bind_run_ok hrun
    cases hpure
    rcases progress_run hrun with ⟨rfl, rfl⟩ | ⟨rfl, hlt, hpos'⟩
    · have hk' := of_runs_fixed hrun h
      exact hk' ▸ hrun
    · exact ih hpos' (by omega) h

/-- Fusion reaches a fixed point. A run reports no change and changes nothing, or it reports a
    change and leaves fewer loops; after as many runs as there are loops, one more reports no change
    and changes nothing. -/
theorem run_repeated {answer : Bool} (h : run k = .ok answer k') :
    (answer = false ∧ k' = k ∨ answer = true ∧ k'.loops.size < k.loops.size) ∧
      ∀ n k₁, k.loops.size ≤ n → runs n k = .ok () k₁ → run k₁ = .ok false k₁ := by
  rcases progress_run h with ⟨rfl, rfl⟩ | ⟨rfl, hlt, -⟩
  · refine ⟨.inl ⟨rfl, rfl⟩, fun n k₁ _ hruns => ?_⟩
    rw [of_runs_fixed h hruns]
    exact h
  · exact ⟨.inr ⟨rfl, hlt⟩, fun n k₁ hn hruns => fixed_of_runs (by omega) hn hruns⟩

/-- Two sums, of which the second uses a copy of what the first uses. The copy, which goes in
    smaller steps, stands between the first sum and what it uses. -/
def staggered : Builder :=
  (Builder.start {} .float32 1 2).after
    [.parameter [16], .parameter [16],
      .load (vector 16 0), .store (vector 16 2), .loop (some 1) 0 16 8,
      .load (vector 16 3), .store (vector 16 4), .loop (some 3) 0 16 4,
      .load (vector 16 1), .store (vector 16 6), .loop (some 5) 0 16 2,
      .load (vector 16 3), .load (vector 16 7), .elementwise "Add" [vector 16 8, vector 16 9], .store (vector 16 10),
      .loop (some 7) 0 16 8,
      .load (vector 16 5), .load (vector 16 11), .elementwise "Add" [vector 16 12, vector 16 13], .store (vector 16 14),
      .loop (some 11) 0 16 4,
      .result (vector 16 15)]

theorem staggered_built : Built staggered := (Built.start _ _ _ _).after (by decide +kernel)

theorem staggered_scheduled : Scheduled 1 staggered.kernel.loops staggered.kernel.sequence := by decide +kernel

/-- After five runs nothing changes any more. -/
theorem run_repeated_staggered :
    staggered.kernel.loops.size = 5 ∧ ∃ k₁, runs 5 staggered.kernel = .ok () k₁ ∧ run k₁ = .ok false k₁ := by
  have hsize : staggered.kernel.loops.size = 5 := by decide +kernel
  have hfinish : (match run staggered.kernel, runs 5 staggered.kernel with
      | .ok _ _, .ok _ _ => true
      | _, _ => false) = true := by decide +kernel
  cases hrun : run staggered.kernel with
  | error f k' => simp [hrun] at hfinish
  | ok answer k' =>
    cases hruns : runs 5 staggered.kernel with
    | error f k₁ => simp [hrun, hruns] at hfinish
    | ok u k₁ => exact ⟨hsize, k₁, rfl, (run_repeated hrun).2 5 k₁ (by rw [hsize]) hruns⟩

/-- One run is not enough: the copy is taken in by the second sum only after the scan has passed the
    first sum, and a second run then brings the first sum together with what it uses. -/
theorem run_again_staggered :
    ∃ b : Builder, Built b ∧ Scheduled 1 b.kernel.loops b.kernel.sequence ∧
      ∃ k' k'', run b.kernel = .ok true k' ∧ run k' = .ok true k'' ∧ k''.loops ≠ k'.loops := by
  refine ⟨staggered, staggered_built, staggered_scheduled, ?_⟩
  have htwice : (match run staggered.kernel with
      | .ok true k' => match run k' with
        | .ok true k'' => decide (k''.loops ≠ k'.loops)
        | _ => false
      | _ => false) = true := by decide +kernel
  split at htwice
  · next k' hrun =>
      split at htwice
      · next k'' hrun' => exact ⟨k', k'', hrun, hrun', of_decide_eq_true htwice⟩
      · cases htwice
  · cases htwice

end Fusion

end KernelLoops
