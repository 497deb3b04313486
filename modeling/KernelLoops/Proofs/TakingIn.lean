import KernelLoops.Proofs.Fitting

set_option autoImplicit false

/-! # Taking in a loop

The fusion pass takes in a loop expression by expression: each gets the tag of the current loop and
is moved next to it. What is done to the list is one of three things, depending on where the loop is
and whether anything lies between. -/

namespace KernelLoops

open List

/-! ## Kernels with the same expressions -/

/-- The second kernel has the expressions of the first one, in some order and in some loops. -/
structure Rearranged (k k' : Kernel) : Prop where
  order : k'.order.Perm k.order
  expr : ∀ e, k'.expr e = { k.expr e with loopIds := (k'.expr e).loopIds }
  rest : k' = { k with exprs := k'.exprs, order := k'.order, loops := k'.loops }

namespace Rearranged

variable {k k' k'' : Kernel}

theorem refl (k : Kernel) : Rearranged k k := ⟨.refl _, fun _ => rfl, rfl⟩

theorem trans (h : Rearranged k k') (h' : Rearranged k' k'') : Rearranged k k'' where
  order := h'.order.trans h.order
  expr e := by rw [h'.expr e, h.expr e]
  rest := by rw [h'.rest, h.rest]

end Rearranged

/-- Nothing but places and tags has changed. -/
structure Shuffled (k k' : Kernel) : Prop extends Rearranged k k' where
  loops : k'.loops = k.loops

theorem Shuffled.refl (k : Kernel) : Shuffled k k := ⟨.refl k, rfl⟩

theorem Shuffled.trans {k k' k'' : Kernel} (h : Shuffled k k') (h' : Shuffled k' k'') :
    Shuffled k k'' :=
  ⟨h.toRearranged.trans h'.toRearranged, h'.loops.trans h.loops⟩

/-! ## Moving one expression -/

/-- Linking before an expression of the sequence, or at the end. -/
theorem Edit.link_run {k : Kernel} {e : ExprId} {mark : Option ExprId}
    (h : ∀ m ∈ mark, k.attached m = true) :
    link e mark k = .ok () { k with order := place e mark k.order } := by
  cases mark with
  | none => rfl
  | some m => exact bind_run_ok (if_pos (h m rfl))

namespace Kernel.Lists

open Edit

variable {k : Kernel} {a b c d : List Expr} {x : Expr}

/-- Moving an expression to another place in the list. -/
theorem move (h : k.Lists (a ++ x :: b)) (hab : a ++ b = c ++ d) :
    ∃ k', Edit.move x.id (d.head?.map Expr.id) k = .ok () k' ∧ Shuffled k k' ∧ k'.Lists (c ++ x :: d) := by
  have hperm : (c ++ x :: d).Perm (a ++ x :: b) := by
    refine perm_middle.trans (List.Perm.trans ?_ perm_middle.symm)
    rw [hab]
  have hrest : (x.id :: (c ++ d).map Expr.id).Nodup := by
    have hnodup := (hperm.map Expr.id).nodup_iff.2 h.nodup
    rw [map_append, map_cons, perm_middle.nodup_iff, ← map_append] at hnodup
    exact hnodup
  obtain ⟨hx, hcd⟩ := nodup_cons.1 hrest
  have herase : k.order.erase x.id = (c ++ d).map Expr.id := by
    have hxa : x.id ∉ a.map Expr.id := fun hmem => hx (by rw [← hab, map_append]; exact mem_append_left _ hmem)
    rw [h.order, map_append, map_cons, erase_append_right _ hxa, erase_cons_head, ← hab,
      map_append]
  have hmark : some x.id ≠ d.head?.map Expr.id := by
    intro heq
    rw [← head?_map] at heq
    refine hx ?_
    rw [map_append]
    exact mem_append_right _ (mem_of_head? heq.symm)
  refine ⟨{ k with order := (c ++ x :: d).map Expr.id }, ?_, ⟨⟨?_, fun _ => rfl, rfl⟩, rfl⟩, ?_⟩
  · unfold Edit.move
    rw [bind_run_ok (show requireAttached x.id k = .ok () k from if_pos (h.attached (by simp))), if_pos hmark]
    show link x.id (d.head?.map Expr.id) { k with order := k.order.erase x.id } = _
    rw [link_run, herase, ← head?_map, map_append, place_append (by rwa [← map_append])]
    · simp
    · intro m hm
      show (k.order.erase x.id).contains m = true
      rw [herase, contains_iff_mem, map_append]
      rw [← head?_map] at hm
      exact mem_append_right _ (mem_of_head? hm)
  · rw [h.order]
    exact hperm.map Expr.id
  · exact
      { order := rfl
        read := fun y hy => h.read y (hperm.mem_iff.1 hy)
        made := fun y hy => h.made y (hperm.mem_iff.1 hy)
        nodup := (hperm.map Expr.id).nodup_iff.2 h.nodup
        consumed := fun l => by simp only [hperm.mem_iff]; exact h.consumed l
        produced := fun l => by simp only [hperm.mem_iff]; exact h.produced l
        known := fun y hy => h.known y (hperm.mem_iff.1 hy) }

/-- Tagging an expression at one of its levels. -/
theorem setLoopId (h : k.Lists (a ++ x :: b)) {level : Nat} {id : LoopId}
    (hlevel : level < x.loopIds.length)
    (hsmall : level < 2 ^ 63) :
    Edit.setLoopId x.id id (Int64.ofNat level) k = .ok ()
        { k with exprs := k.exprs.modify x.id fun _ => { x with loopIds := x.loopIds.set level id } } := by
  have hint : (Int64.ofNat level).toInt = level := Int64.toInt_ofNat_of_lt hsmall
  have hx : k.expr x.id = x := h.read x (by simp)
  have hnew : (k.expr x.id).withLoopId id (Int64.ofNat level) = .ok { x with loopIds := x.loopIds.set level id } := by
    rw [hx, Expr.withLoopId, hint, if_pos]
    · rfl
    · rw [Bool.and_eq_true, decide_eq_true_eq, decide_eq_true_eq]
      exact ⟨Amount.le_iff.2 (by rw [hint]; exact Int.natCast_nonneg level), Int.ofNat_lt.2 hlevel⟩
  unfold Edit.setLoopId updateExpr
  rw [bind_run_ok (ask_run_ok hnew)]
  rfl

end Kernel.Lists

/-! ## Moving a loop -/

namespace Fusion

open Edit

variable {k : Kernel} {level budget : Nat} {id target : LoopId} {stop mark : Option ExprId}
  {moving : Bool}
  {a b c d pre mid rest T : List Expr} {x : Expr}

/-- Tagging one expression of the loop. -/
theorem exists_tagged (h : k.Lists (a ++ x :: b)) (hx : x.loopIds[level]? = some target)
    (hsmall : level < 2 ^ 63)
    (id : LoopId) :
    ∃ k', setLoopId x.id id (Int64.ofNat level) k = .ok () k' ∧ Shuffled k k' ∧
      k'.Lists (a ++ x.joined level target id :: b) := by
  have hjoined : x.joined level target id = { x with loopIds := x.loopIds.set level id } := if_pos hx
  refine ⟨_, h.setLoopId (List.getElem?_eq_some_iff.1 hx).1 hsmall, ⟨⟨.refl _, fun e => ?_, rfl⟩, rfl⟩, ?_⟩
  · rw [Kernel.expr_modify]
    split
    · next he => rw [he.1, h.read x (by simp)]
    · rfl
  · rw [hjoined]
    exact h.modify rfl rfl rfl

/-- One step of taking in a loop: an expression is tagged, and stays where it is or is moved. -/
theorem takeIn_step (h : k.Lists (a ++ x :: b)) (hx : x.loopIds[level]? = some target)
    (hsmall : level < 2 ^ 63)
    (hstop : some x.id ≠ stop) (hab : a ++ b = c ++ d) (hmove : if moving then mark = d.head?.map Expr.id else a = c) :
    ∃ k', takeIn id level stop mark moving (budget + 1) (some x.id) k =
        takeIn id level stop mark moving budget (b.head?.map Expr.id) k' ∧ Shuffled k k' ∧
      k'.Lists (c ++ x.joined level target id :: d) := by
  obtain ⟨k', hrun, hsame, htagged⟩ := exists_tagged h hx hsmall id
  rw [takeIn, if_neg hstop]
  show ∃ k'', (do
    setLoopId x.id id _
    if moving then move x.id mark
    takeIn id level stop mark moving budget (k.next? x.id) : Edit Unit) k = _ ∧ _
  rw [bind_run_ok hrun, h.next?]
  cases moving with
  | false =>
    obtain rfl := hmove
    obtain rfl := append_cancel_left hab
    exact ⟨k', rfl, hsame, htagged⟩
  | true =>
    obtain ⟨k'', hmoved, hsame', hlists⟩ := htagged.move hab
    rw [Expr.joined_id, ← hmove] at hmoved
    exact ⟨k'', bind_run_ok hmoved, hsame.trans hsame', hlists⟩

/-- What stops the walk is not part of the loop. -/
theorem ne_head? (h : k.Lists (a ++ x :: b ++ rest)) : some x.id ≠ rest.head?.map Expr.id := by
  intro heq
  rw [← head?_map] at heq
  have hnodup := h.nodup
  rw [map_append] at hnodup
  exact (nodup_append.1 hnodup).2.2 x.id (by simp) _ (mem_of_head? heq.symm) rfl

theorem takeIn_done (moving : Bool) (budget : Nat) :
    takeIn id level stop mark moving budget stop k = .ok () k := by
  unfold takeIn
  rw [if_pos rfl]
  rfl

/-- Taking in a loop, where `front` and `back` are what lies on either side of the rest of it once
    some of it is done. -/
theorem takeIn_run (id : LoopId) (mark : Option ExprId) (moving : Bool)
    (front back : List Expr → List Expr)
    (hstop : ∀ done, stop = (back done).head?.map Expr.id)
    (hplace : ∀ done T, ∃ c d, front done ++ (T ++ back done) = c ++ d ∧
      (if moving then mark = d.head?.map Expr.id else front done = c) ∧
      ∀ x, c ++ x :: d = front (done ++ [x]) ++ T ++ back (done ++ [x]))
    {done : List Expr} (h : k.Lists (front done ++ T ++ back done)) (hT : ∀ x ∈ T, x.loopIds[level]? = some target)
    (hsmall : level < 2 ^ 63) (hbudget : T.length ≤ budget) :
    ∃ k', takeIn id level stop mark moving budget ((T ++ back done).head?.map Expr.id) k = .ok () k' ∧
      Shuffled k k' ∧ k'.Lists (front (done ++ T.map (·.joined level target id)) ++
        back (done ++ T.map (·.joined level target id))) := by
  induction T generalizing k done budget with
  | nil => exact ⟨k, hstop done ▸ takeIn_done moving budget, .refl k, by simpa using h⟩
  | cons x T ih =>
    cases budget with
    | zero => cases hbudget
    | succ budget =>
      obtain ⟨c, d, hab, hmove, hnext⟩ := hplace done T
      obtain ⟨k1, hstep, hsame, hlists⟩ :=
        takeIn_step (show k.Lists (front done ++ x :: (T ++ back done)) by simpa using h)
        (hT x mem_cons_self) hsmall (hstop done ▸ ne_head? h) hab hmove
      obtain ⟨k', hrun, hsame', hlists'⟩ :=
        ih (hnext _ ▸ hlists) (fun y hy => hT y (mem_cons_of_mem _ hy)) (Nat.le_of_succ_le_succ hbudget)
      refine ⟨k', hstep.trans ?_, hsame.trans hsame', by simpa using hlists'⟩
      rw [← hrun]
      cases T with
      | nil => rw [nil_append, nil_append, ← hstop, ← hstop]
      | cons => rfl

/-- Whether anything lies between tells whether the loop is moved. -/
theorem head?_bne (h : k.Lists (pre ++ mid ++ (x :: rest))) :
    ((mid ++ x :: rest).head?.map Expr.id != some x.id) = !mid.isEmpty := by
  cases mid with
  | nil => exact bne_self_eq_false _
  | cons m mid => exact bne_iff_ne.2 (ne_head? h)

/-- Taking in a loop that lies before the current one. -/
theorem takeIn_before (id : LoopId) {C : List Expr} {start here : Expr}
    (h : k.Lists (pre ++ T ++ mid ++ C ++ rest))
    (hT : ∀ x ∈ T, x.loopIds[level]? = some target) (hsmall : level < 2 ^ 63) (hbudget : T.length ≤ budget)
    (hstart : T.head? = some start) (hhere : C.head? = some here) :
    ∃ k', takeIn id level ((mid ++ C ++ rest).head?.map Expr.id) (some here.id)
        ((mid ++ C ++ rest).head?.map Expr.id != some here.id) budget (some start.id) k = .ok () k' ∧
      Shuffled k k' ∧ k'.Lists (pre ++ mid ++ T.map (·.joined level target id) ++ C ++ rest) := by
  obtain ⟨T, rfl⟩ := head?_eq_some_iff.1 hstart
  obtain ⟨C, rfl⟩ := head?_eq_some_iff.1 hhere
  have hmoving := head?_bne (show k.Lists ((pre ++ start :: T) ++ mid ++ here :: (C ++ rest)) by simpa using h)
  rw [append_assoc, cons_append, hmoving]
  cases mid with
  | nil =>
    obtain ⟨k', hrun, hsame, hlists⟩ := takeIn_run id (some here.id) false (pre ++ ·) (fun _ => here :: (C ++ rest))
      (fun _ => rfl) (fun done T => ⟨pre ++ done, T ++ here :: (C ++ rest), rfl, rfl, by simp⟩)
      (show k.Lists (pre ++ [] ++ start :: T ++ here :: (C ++ rest)) by simpa using h) hT hsmall hbudget
    exact ⟨k', hrun, hsame, by simpa using hlists⟩
  | cons m mid =>
    obtain ⟨k', hrun, hsame, hlists⟩ := takeIn_run id (some here.id) true (fun _ => pre)
      (fun done => m :: mid ++ done ++ here :: (C ++ rest)) (fun _ => rfl)
      (fun done T => ⟨pre ++ T ++ m :: mid ++ done, here :: (C ++ rest), by simp, rfl, by simp⟩)
      (show k.Lists (pre ++ start :: T ++ (m :: mid ++ [] ++ here :: (C ++ rest))) by simpa using h) hT hsmall hbudget
    exact ⟨k', hrun, hsame, by simpa using hlists⟩

/-- Taking in a loop that lies behind the current one. -/
theorem takeIn_behind (id : LoopId) {start : Expr} (h : k.Lists (pre ++ mid ++ T ++ rest))
    (hT : ∀ x ∈ T, x.loopIds[level]? = some target) (hsmall : level < 2 ^ 63) (hbudget : T.length ≤ budget)
    (hstart : T.head? = some start) :
    ∃ k', takeIn id level (rest.head?.map Expr.id) ((mid ++ T ++ rest).head?.map Expr.id)
        ((mid ++ T ++ rest).head?.map Expr.id != some start.id) budget (some start.id) k = .ok () k' ∧
      Shuffled k k' ∧ k'.Lists (pre ++ T.map (·.joined level target id) ++ mid ++ rest) := by
  obtain ⟨T, rfl⟩ := head?_eq_some_iff.1 hstart
  have hmoving := head?_bne (show k.Lists (pre ++ mid ++ start :: (T ++ rest)) by simpa using h)
  rw [append_assoc, cons_append, hmoving]
  obtain ⟨k', hrun, hsame, hlists⟩ := takeIn_run id ((mid ++ start :: (T ++ rest)).head?.map Expr.id) (!mid.isEmpty)
    (fun done => pre ++ done ++ mid) (fun _ => rest) (fun _ => rfl)
    (fun done T => ⟨pre ++ done, mid ++ (T ++ rest), by simp, by cases mid <;> simp, by simp⟩)
    (show k.Lists (pre ++ [] ++ mid ++ start :: T ++ rest) by simpa using h) hT hsmall hbudget
  exact ⟨k', hrun, hsame, by simpa using hlists⟩

end Fusion

end KernelLoops
