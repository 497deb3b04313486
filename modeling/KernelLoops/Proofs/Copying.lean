import KernelLoops.Proofs.Relabelling

set_option autoImplicit false

/-! # Copying a piece of the list

A copy of a range has a fresh number for each expression, fresh names for the tensors that only the
range reads, and loops of its own. On the list, the range is followed by its image under one
function. -/

namespace KernelLoops

open List

variable {k : Kernel} {xs : List Expr} {loops : LoopTable} {exprs : Array Expr}
  {number : ExprId → ExprId}
  {done : List (LoopId × LoopId)} {names : List (TensorId × Tensor) × TensorId} {ids : List LoopId}
  {out : List TensorId} {t u : Tensor} {i n n' : TensorId} {table : List (TensorId × Tensor)}

/-! ## Fresh names -/

section FreshNames

/-- What a table of fresh names knows: names from `n` up to `n'`, each handed out once. -/
structure FreshTable (table : List (TensorId × Tensor)) (n n' : TensorId) : Prop where
  le : n ≤ n'
  fresh : ∀ i u, table.lookup i = some u → n ≤ u.id ∧ u.id < n'
  injective : ∀ i j u v, table.lookup i = some u → table.lookup j = some v → u.id = v.id → i = j

theorem FreshTable.nil (n : TensorId) : FreshTable [] n n :=
  ⟨Nat.le_refl n, fun _ _ h => (nomatch h), fun _ _ _ _ h => (nomatch h)⟩

theorem lookup_concat (h : table.lookup i = none) (j : TensorId) :
    (table ++ [(i, t)]).lookup j = if j = i then some t else table.lookup j := by
  rw [lookup_append, lookup_cons_eq]
  by_cases hj : j = i
  · rw [if_pos hj, hj, h, Option.none_or, if_pos rfl]
  · rw [if_neg hj, if_neg hj, lookup_nil, Option.or_none]

theorem FreshTable.concat (h : FreshTable table n n') (hi : table.lookup i = none)
    (t : TensorType) : FreshTable (table ++ [(i, { t with id := n' })]) n (n' + 1) := by
  refine ⟨Nat.le_succ_of_le h.le, fun j u hj => ?_, fun j j' u u' hj hj' hid => ?_⟩
  · rw [lookup_concat hi] at hj
    split at hj
    · cases hj
      exact ⟨h.le, Nat.lt_succ_self n'⟩
    · exact ⟨(h.fresh j u hj).1, Nat.lt_succ_of_lt (h.fresh j u hj).2⟩
  · rw [lookup_concat hi] at hj hj'
    split at hj
    · next heq =>
        split at hj'
        · next heq' => exact heq.trans heq'.symm
        · cases hj
          exact absurd hid.symm (Nat.ne_of_lt (h.fresh j' u' hj').2)
    · split at hj'
      · cases hj'
        exact absurd hid (Nat.ne_of_lt (h.fresh j u hj).2)
      · exact h.injective j j' u u' hj hj' hid

/-- Fresh names are handed out for the listed tensors, and for no other. -/
theorem freshNames_spec (ts : List Tensor) (h : FreshTable table n n') :
    FreshTable (freshNames ts table n').1 n (freshNames ts table n').2 ∧
      ∀ i, ((freshNames ts table n').1.lookup i).isSome ↔
        (table.lookup i).isSome ∨ ∃ t ∈ ts, t.id = i := by
  induction ts generalizing table n' with
  | nil => exact ⟨h, fun i => by simp [freshNames]⟩
  | cons t ts ih =>
    rw [freshNames]
    split
    · next hsome =>
        obtain ⟨htable, hkeys⟩ := ih h
        refine ⟨htable, fun i => (hkeys i).trans ?_⟩
        simp only [mem_cons, exists_eq_or_imp]
        constructor
        · exact Or.imp_right .inr
        · rintro (hi | rfl | hi)
          · exact .inl hi
          · exact .inl hsome
          · exact .inr hi
    · next hnone =>
        have hnone : table.lookup t.id = none := Option.not_isSome_iff_eq_none.1 hnone
        obtain ⟨htable, hkeys⟩ := ih (h.concat hnone t.toTensorType)
        refine ⟨htable, fun i => (hkeys i).trans ?_⟩
        rw [lookup_concat hnone]
        simp only [mem_cons, exists_eq_or_imp]
        by_cases hi : i = t.id
        · simp [hi]
        · simp [hi, Ne.symm hi]

/-- New names have the types of the old ones. -/
theorem type_freshNames (ts : List Tensor)
    (h : (freshNames ts table n).1.lookup i = some u) :
    table.lookup i = some u ∨ ∃ t ∈ ts, t.id = i ∧ u.toTensorType = t.toTensorType := by
  induction ts generalizing table n with
  | nil => exact .inl h
  | cons t ts ih =>
    rw [freshNames] at h
    split at h
    · rcases ih h with hold | ⟨v, hv, hid⟩
      · exact .inl hold
      · exact .inr ⟨v, mem_cons_of_mem t hv, hid⟩
    · next hnone =>
        rcases ih h with hold | ⟨v, hv, hid⟩
        · rw [lookup_concat (Option.not_isSome_iff_eq_none.1 hnone)] at hold
          split at hold
          · next heq =>
              cases hold
              exact .inr ⟨t, mem_cons_self, heq.symm, rfl⟩
          · exact .inl hold
        · exact .inr ⟨v, mem_cons_of_mem t hv, hid⟩

/-- The new names spare what is read elsewhere and what is not made here. -/
def Leaves (table : List (TensorId × Tensor)) (out : List TensorId) (made : List Tensor) : Prop :=
  ∀ i, (i ∈ out ∨ ∀ t ∈ made, t.id ≠ i) → table.lookup i = none

theorem leaves_freshNames (made : List Tensor) (out : List TensorId) (n : TensorId) :
    Leaves (freshNames (made.filter fun t => !out.contains t.id) [] n).1 out made := by
  intro i hi
  have hspec := (freshNames_spec (made.filter fun t => !out.contains t.id) (FreshTable.nil n)).2 i
  rw [← Option.not_isSome_iff_eq_none, hspec]
  rintro (hnone | ⟨t, ht, rfl⟩)
  · cases hnone
  · obtain ⟨hmade, hout⟩ := mem_filter.1 ht
    rcases hi with hi | hi
    · rw [contains_iff_mem.2 hi] at hout
      cases hout
    · exact hi t hmade rfl

end FreshNames

namespace Edit

/-- Handing out fresh names for tensors. -/
theorem copyTensors_run (ts : List Tensor) (k : Kernel) :
    copyTensors ts k = .ok (freshNames ts [] k.nextTensor).1
      { k with nextTensor := (freshNames ts [] k.nextTensor).2 } := by
  have hfold : ∀ (ts : List Tensor) (table : List (TensorId × Tensor)) (k : Kernel),
      ts.foldlM copyTensor table k = .ok (freshNames ts table k.nextTensor).1
        { k with nextTensor := (freshNames ts table k.nextTensor).2 } := by
    intro ts
    induction ts with
    | nil => exact fun _ _ => rfl
    | cons t ts ih =>
      intro table k
      rw [freshNames]
      by_cases hsome : (table.lookup t.id).isSome
      · have hstep : copyTensor table t k = .ok table k := by
          rw [copyTensor, if_pos hsome]
          rfl
        rw [if_pos hsome]
        exact (bind_run_ok hstep).trans (ih table k)
      · have hstep : copyTensor table t k = .ok (table ++ [(t.id, { t.toTensorType with id := k.nextTensor })])
            { k with nextTensor := k.nextTensor + 1 } := by
          rw [copyTensor, if_neg hsome]
          rfl
        rw [if_neg hsome]
        exact (bind_run_ok hstep).trans (ih _ { k with nextTensor := k.nextTensor + 1 })
  exact hfold ts [] k

/-- What the copies of listed expressions are made of. -/
structure Numbered (k : Kernel) (table : List (TensorId × Tensor)) (xs : List Expr)
    (number : ExprId → ExprId)
    (exprs : Array Expr) : Prop where
  size : k.exprs.size ≤ exprs.size
  old : ∀ i < k.exprs.size, ({ k with exprs } : Kernel).expr i = k.expr i
  fresh : ∀ x ∈ xs, k.exprs.size ≤ number x.id ∧ number x.id < exprs.size
  read : ∀ x ∈ xs, ({ k with exprs } : Kernel).expr (number x.id) =
    { x.rename table with id := number x.id, hasLevels := !x.loopIds.isEmpty }
  nodup : (xs.map fun x => number x.id).Nodup

/-- Copies get numbers of their own. -/
theorem mapM_copyExpr_run (table : List (TensorId × Tensor)) (hnodup : (xs.map Expr.id).Nodup)
    (k : Kernel) :
    ∃ number exprs, Numbered k table xs number exprs ∧
      xs.mapM (copyExpr table) k = .ok (xs.map fun x => (x.id, number x.id)) { k with exprs } := by
  induction xs generalizing k with
  | nil =>
    exact ⟨fun i => i, k.exprs, ⟨Nat.le_refl _, fun _ _ => rfl, by simp, by simp, by simp⟩, rfl⟩
  | cons x xs ih =>
    rw [map_cons, nodup_cons] at hnodup
    let y : Expr := { x.rename table with id := k.exprs.size, hasLevels := !x.loopIds.isEmpty }
    let k1 : Kernel := { k with exprs := k.exprs.push y }
    have hstep : copyExpr table x k = .ok (x.id, k.exprs.size) k1 := rfl
    obtain ⟨number, exprs, hnum, hrun⟩ := ih hnodup.2 k1
    have hsize1 : k1.exprs.size = k.exprs.size + 1 := Array.size_push y
    have hsize : k.exprs.size + 1 ≤ exprs.size := hsize1 ▸ hnum.size
    have hfresh : ∀ z ∈ xs, k.exprs.size + 1 ≤ number z.id := fun z hz => hsize1 ▸ (hnum.fresh z hz).1
    have hne : ∀ z ∈ xs, z.id ≠ x.id := fun z hz hzx => hnodup.1 (hzx ▸ mem_map_of_mem hz)
    -- the copy of `x` has the first number, the others have later ones
    let number' : ExprId → ExprId := fun i => if i = x.id then k.exprs.size else number i
    have hfirst : number' x.id = k.exprs.size := if_pos rfl
    have hlater : ∀ z ∈ xs, number' z.id = number z.id := fun z hz => if_neg (hne z hz)
    have hold1 : ∀ i < k.exprs.size + 1, ({ k with exprs } : Kernel).expr i = k1.expr i :=
      fun i hi => hnum.old i (hsize1 ▸ hi)
    have hnumbers : xs.map (fun z => number' z.id) = xs.map fun z => number z.id :=
      map_congr_left hlater
    have hpairs : xs.map (fun z => (z.id, number' z.id)) = xs.map fun z => (z.id, number z.id) :=
      map_congr_left fun z hz => by rw [hlater z hz]
    refine ⟨number', exprs, ⟨?_, fun i hi => ?_, ?_, ?_, ?_⟩, ?_⟩
    · exact Nat.le_of_succ_le hsize
    · rw [hold1 i (Nat.lt_succ_of_lt hi)]
      exact (k.expr_push y i).trans (if_neg (Nat.ne_of_lt hi))
    · refine forall_mem_cons.2 ⟨?_, fun z hz => ?_⟩
      · rw [hfirst]
        exact ⟨Nat.le_refl _, hsize⟩
      · rw [hlater z hz]
        exact ⟨Nat.le_of_succ_le (hfresh z hz), (hnum.fresh z hz).2⟩
    · refine forall_mem_cons.2 ⟨?_, fun z hz => ?_⟩
      · rw [hfirst, hold1 _ (Nat.lt_succ_self _)]
        exact (k.expr_push y _).trans (if_pos rfl)
      · rw [hlater z hz]
        exact hnum.read z hz
    · rw [map_cons, hnumbers, hfirst, nodup_cons]
      refine ⟨fun hmem => ?_, hnum.nodup⟩
      obtain ⟨z, hz, hzx⟩ := mem_map.1 hmem
      exact Nat.not_succ_le_self _ (hzx ▸ hfresh z hz)
    · rw [map_cons, hpairs, hfirst, mapM_cons]
      exact (bind_run_ok hstep).trans ((bind_run_ok hrun).trans rfl)

theorem lookup_map_number {x : Expr} (hx : x ∈ xs) :
    (xs.map fun y => (y.id, number y.id)).lookup x.id = some (number x.id) := by
  induction xs with
  | nil => cases hx
  | cons y ys ih =>
    rw [map_cons, lookup_cons_eq]
    by_cases hxy : x.id = y.id
    · rw [if_pos hxy, hxy]
    · rw [if_neg hxy]
      rcases mem_cons.1 hx with rfl | hx
      · exact absurd rfl hxy
      · exact ih hx

/-- The copy of an expression, in loops of its own. -/
def imageOf (table : List (TensorId × Tensor)) (number : ExprId → ExprId)
    (mapping : List (LoopId × LoopId))
    (x : Expr) : Expr :=
  Edit.retagged mapping { x.rename table with id := number x.id, hasLevels := !x.loopIds.isEmpty }

theorem core_imageOf (table : List (TensorId × Tensor)) (number : ExprId → ExprId)
    (mapping : List (LoopId × LoopId))
    (x : Expr) : (imageOf table number mapping x).core = (x.rename table).core := by
  simp only [imageOf, Edit.retagged, Expr.core, Expr.bare, Expr.rename, Option.map_map]
  rfl

/-- Giving the copies other tags changes nothing else. -/
theorem Numbered.retagged (h : Numbered k table xs number exprs)
    (loops : LoopTable) (mapping : List (LoopId × LoopId)) : ∃ exprs' : Array Expr,
      ({ k with exprs, loops } : Kernel).modifyEach (fun e => e) (fun _ => Edit.retagged mapping)
        (xs.map fun x => number x.id) = { k with exprs := exprs', loops } ∧
      exprs'.size = exprs.size ∧
      (∀ i < k.exprs.size, ({ k with exprs := exprs', loops } : Kernel).expr i = k.expr i) ∧
      ∀ x ∈ xs, ({ k with exprs := exprs', loops } : Kernel).expr (number x.id) = imageOf table number mapping x := by
  let k1 : Kernel := { k with exprs, loops }
  have hsame := Kernel.modifyEach_eq (fun e => e) (fun _ => Edit.retagged mapping) (xs.map fun x => number x.id) k1
  refine ⟨_, hsame, Kernel.size_modifyEach _ _ _ k1, fun i hi => ?_, fun x hx => ?_⟩
  · rw [← hsame]
    refine (Kernel.expr_modifyEach_of_not_mem _ _ k1 fun hmem => ?_).trans (h.old i hi)
    rw [map_id'] at hmem
    obtain ⟨x, hx, rfl⟩ := mem_map.1 hmem
    exact absurd hi (Nat.not_lt.2 (h.fresh x hx).1)
  · have hnodup : ((xs.map fun x => number x.id).map fun e => e).Nodup := by
      rw [map_id']
      exact h.nodup
    rw [← hsame, Kernel.expr_modifyEach_of_mem (fun e => e) _ k1 hnodup (mem_map_of_mem hx) (h.fresh x hx).2]
    exact congrArg (Edit.retagged mapping) (h.read x hx)

/-- The loops of a table are what they were, and the loops of the mapping are registered once more,
    under fresh names and with their boundary moved. -/
structure Relooped (move : Port → Port) (loops loops' : LoopTable)
    (mapping : List (LoopId × LoopId)) : Prop where
  numbered : loops'.Numbered
  same : ∀ id, (loops.get? id).isSome → loops'.get? id = loops.get? id
  mapped : ∀ p ∈ mapping, loops.get? p.2 = none ∧ ∃ info, loops.get? p.1 = some info ∧
    loops'.get? p.2 = some { info with entries := info.entries.map move, exits := info.exits.map move }
  apart : (mapping.map Prod.snd).Nodup

namespace Relooped

variable {move : Port → Port} {loops' : LoopTable} {mapping : List (LoopId × LoopId)} {id j : LoopId}

theorem grown (h : Relooped move loops loops' mapping) (id : LoopId) (hid : (loops.get? id).isSome) :
    (loops'.get? id).isSome := by
  rwa [h.same id hid]

theorem mem_of_lookup (hl : mapping.lookup id = some j) : (id, j) ∈ mapping := by
  obtain ⟨pre, post, hmapping, -⟩ := lookup_eq_some_iff.1 hl
  simp [hmapping]

variable (h : Relooped move loops loops' mapping)

include h

/-- A loop that keeps its name, or has a new one, is registered. -/
theorem renamed (hid : renamed mapping id = id → (loops.get? id).isSome) :
    (loops'.get? (renamed mapping id)).isSome := by
  cases hl : mapping.lookup id with
  | none =>
    have hsame : Edit.renamed mapping id = id := by rw [Edit.renamed, hl, Option.getD_none]
    rw [hsame]
    exact h.grown id (hid hsame)
  | some j =>
    obtain ⟨-, info, -, hinfo⟩ := h.mapped (id, j) (mem_of_lookup hl)
    rw [Edit.renamed, hl, Option.getD_some, hinfo]
    rfl

/-- A free level stays free, and one that is taken stays taken. -/
theorem bare_imageOf (hloops : loops.Numbered) (table : List (TensorId × Tensor))
    (number : ExprId → ExprId) (x : Expr) :
    (imageOf table number mapping x).bare = (x.rename table).bare := by
  have hlevels : (x.loopIds.map (Edit.renamed mapping)).map LoopId.blurred = x.loopIds.map LoopId.blurred := by
    rw [map_map]
    refine map_congr_left fun id _ => ?_
    rw [Function.comp_apply, Edit.renamed]
    cases hl : mapping.lookup id with
    | none => rfl
    | some j =>
      obtain ⟨-, info, hinfo, hnew⟩ := h.mapped (id, j) (mem_of_lookup hl)
      rw [Option.getD_some, LoopId.blurred, LoopId.blurred, hloops.isSentinel (Option.isSome_of_eq_some hinfo),
        h.numbered.isSentinel (Option.isSome_of_eq_some hnew)]
      rfl
  exact congrArg₂ (fun (y : Expr) tags => { y with loopIds := tags }) (core_imageOf table number mapping x) hlevels

/-- Two loops do not get the same new name. -/
theorem injective {i : LoopId} (hi : mapping.lookup i = some id) (hj : mapping.lookup j = some id) :
    i = j := by
  have happart := h.apart
  clear h
  induction mapping with
  | nil => cases hi
  | cons p rest ih =>
    rw [map_cons, nodup_cons] at happart
    rw [lookup_cons_eq] at hi hj
    split at hi
    · next hip =>
        split at hj
        · next hjp => exact hip.trans hjp.symm
        · cases hi
          exact absurd (mem_map_of_mem (f := Prod.snd) (mem_of_lookup hj)) happart.1
    · split at hj
      · cases hj
        exact absurd (mem_map_of_mem (f := Prod.snd) (mem_of_lookup hi)) happart.1
      · exact ih hi hj happart.2

end Relooped

theorem lookup_filter_ne {id j : LoopId} (hne : j ≠ id) :
    (done.filter (·.1 != id)).lookup j = done.lookup j := by
  induction done with
  | nil => rfl
  | cons p rest ih =>
    rw [filter_cons]
    split
    · rw [lookup_cons_eq, lookup_cons_eq, ih]
    · next hp =>
        have hid : p.1 = id := by simpa using hp
        rw [lookup_cons_eq, if_neg (hid ▸ hne), ih]

/-- Registering loops again. -/
theorem foldlM_copyLoop_run (c : RangeCopy) (hdone : Relooped c.movePort loops k.loops done)
    (hids : ∀ id ∈ ids, (loops.get? id).isSome) :
    ∃ mapping loops', Relooped c.movePort loops loops' mapping ∧
      (∀ id, (mapping.lookup id).isSome ↔ (done.lookup id).isSome ∨ id ∈ ids) ∧
      ids.foldlM (copyLoop c) done k = .ok mapping { k with loops := loops' } := by
  induction ids generalizing k done with
  | nil => exact ⟨done, k.loops, hdone, by simp, rfl⟩
  | cons id ids ih =>
    obtain ⟨info, hinfo⟩ := Option.isSome_iff_exists.1 (hids id mem_cons_self)
    have hinfo' : k.loops.get? id = some info := (hdone.same id (by simp [hinfo])).trans hinfo
    let moved : LoopInfo := { info with
      entries := info.entries.map c.movePort
      exits := info.exits.map c.movePort }
    let k1 : Kernel := { k with loops := (k.loops.insert moved).2 }
    have hask : ask (fun k => k.loopInfo id) k = .ok info k := ask_run_ok (LoopTable.info_eq_ok.2 hinfo')
    have hstep : copyLoop c done id k = .ok ((id, k.loops.next) :: done.filter (·.1 != id)) k1 :=
      (bind_run_ok hask).trans rfl
    have hnone : loops.get? k.loops.next = none := by
      rw [← Option.not_isSome_iff_eq_none]
      intro hsome
      have hold := hdone.grown _ hsome
      rw [hdone.numbered.get?_next] at hold
      cases hold
    have hold : ∀ i, (k.loops.get? i).isSome → k1.loops.get? i = k.loops.get? i := fun i hi =>
      LoopTable.get?_insert_of_isSome moved hi
    have hdone1 : Relooped c.movePort loops k1.loops ((id, k.loops.next) :: done.filter (·.1 != id)) := by
      refine ⟨hdone.numbered.insert moved, ?_, forall_mem_cons.2 ⟨⟨hnone, info, hinfo, ?_⟩, ?_⟩, ?_⟩
      · intro i hi
        rw [hold i (hdone.grown i hi), hdone.same i hi]
      · exact hdone.numbered.get?_insert_next moved
      · intro p hp
        obtain ⟨hfresh, i, hi, hi'⟩ := hdone.mapped p (mem_of_mem_filter hp)
        exact ⟨hfresh, i, hi, (hold p.2 (by simp [hi'])).trans hi'⟩
      · rw [map_cons, nodup_cons]
        refine ⟨?_, hdone.apart.sublist (filter_sublist.map Prod.snd)⟩
        intro hmem
        obtain ⟨p, hp, hpn⟩ := mem_map.1 hmem
        obtain ⟨-, i, -, hi'⟩ := hdone.mapped p (mem_of_mem_filter hp)
        rw [hpn, hdone.numbered.get?_next] at hi'
        cases hi'
    obtain ⟨mapping, loops', hloops, hkeys, hrun⟩ := ih hdone1 fun i hi => hids i (mem_cons_of_mem id hi)
    refine ⟨mapping, loops', hloops, ?_, (bind_run_ok hstep).trans hrun⟩
    intro i
    rw [hkeys i, lookup_cons_eq, mem_cons]
    by_cases hi : i = id
    · simp [hi]
    · rw [if_neg hi, lookup_filter_ne hi]
      simp [hi]

/-- Giving copies loops of their own. -/
theorem copyLoops_run (c : RangeCopy) (hnumbered : k.loops.Numbered)
    (hids : ∀ id ∈ ids, (k.loops.get? id).isSome) :
    ∃ mapping loops', Relooped c.movePort k.loops loops' mapping ∧ (∀ id, (mapping.lookup id).isSome ↔ id ∈ ids) ∧
      copyLoops c ids k = .ok mapping
        (({ k with loops := loops' } : Kernel).modifyEach (fun e => e) (fun _ => retagged mapping) c.copies) := by
  have hstart : Relooped c.movePort k.loops k.loops [] := ⟨hnumbered, fun _ _ => rfl, by simp, by simp⟩
  obtain ⟨mapping, loops', hloops, hkeys, hrun⟩ := foldlM_copyLoop_run c hstart hids
  refine ⟨mapping, loops', hloops, fun id => by simpa using hkeys id, (bind_run_ok hrun).trans ?_⟩
  exact (bind_run_ok (forM_modifyExpr_run (fun e => e) (fun _ => retagged mapping) c.copies _)).trans rfl

/-- The loops of the mapping are those that tag registered code, but not the ones in `outer`, which
    are around it. -/
structure Recopied (move : Port → Port) (loops loops' : LoopTable) (mapping : List (LoopId × LoopId))
    (ids path outer : List LoopId) (c : Code) : Prop extends Relooped move loops loops' mapping where
  registered : c.Registered loops ids path
  around : outer.filter (ids.contains ·) = path
  keys : ∀ id, (mapping.lookup id).isSome ↔
    (∃ x ∈ c.flatten, id ∈ x.loopIds) ∧ id.isSentinel = false ∧ id ∉ outer

namespace Recopied

variable {move : Port → Port} {loops' : LoopTable} {mapping : List (LoopId × LoopId)}
  {path outer : List LoopId} {c : Code}
  {id j : LoopId} {x : Expr}

section

variable (h : Recopied move loops loops' mapping ids path outer c)

include h

theorem mem_outer (hid : id ∈ path) : id ∈ outer ∧ id ∈ ids := by
  rw [← h.around, mem_filter, contains_iff_mem] at hid
  exact hid

/-- A loop of the code has a new name. -/
theorem exists_new (hid : id ∈ c.names) : ∃ j, mapping.lookup id = some j := by
  apply Option.isSome_iff_exists.1
  rw [h.keys id]
  refine ⟨h.registered.labelled.exists_tagged hid, ?_, fun hmem => ?_⟩
  · exact h.numbered.isSentinel (h.grown id (h.registered.agrees.isSome hid))
  · have hpath : id ∈ path := by
      rw [← h.around]
      exact mem_filter.2 ⟨hmem, contains_iff_mem.2 (h.registered.labelled.mem_of_mem_names hid)⟩
    exact h.registered.outside id hpath hid

/-- A loop around the code keeps its name. -/
theorem lookup_outer (hid : id ∈ outer) : mapping.lookup id = none := by
  rw [← Option.not_isSome_iff_eq_none, h.keys id]
  exact fun hsome => hsome.2.2 hid

theorem map_path : path.map (renamed mapping) = path := by
  refine (map_congr_left fun id hid => ?_).trans (map_id _)
  rw [renamed, h.lookup_outer (h.mem_outer hid).1]
  rfl

theorem fresh (hj : j ∈ c.names.map (renamed mapping)) :
    loops.get? j = none ∧ j.isSentinel = false ∧ (loops'.get? j).isSome := by
  obtain ⟨id, hid, rfl⟩ := mem_map.1 hj
  obtain ⟨j, hlookup⟩ := h.exists_new hid
  obtain ⟨hnone, info, -, hinfo'⟩ := h.mapped (id, j) (Relooped.mem_of_lookup hlookup)
  have hsome : (loops'.get? j).isSome := by simp [hinfo']
  rw [renamed, hlookup]
  exact ⟨hnone, h.numbered.isSentinel hsome, hsome⟩

theorem not_mem_fresh (hid : (loops.get? id).isSome) : id ∉ c.names.map (renamed mapping) := by
  intro hmem
  rw [(h.fresh hmem).1] at hid
  cases hid

theorem nodup_new : (c.names.map (renamed mapping)).Nodup := by
  refine List.Nodup.map_on (fun i hi j hj hij => ?_) h.registered.apart
  obtain ⟨i', hi'⟩ := h.exists_new hi
  obtain ⟨j', hj'⟩ := h.exists_new hj
  rw [renamed, renamed, hi', hj', Option.getD_some, Option.getD_some] at hij
  exact h.injective hi' (hij ▸ hj')

/-- No expression of the code is tagged with a new name. -/
theorem not_mem_tags (hx : x ∈ c.flatten) (hid : id ∈ c.names.map (renamed mapping)) :
    id ∉ x.loopIds := by
  intro hmem
  exact h.not_mem_fresh ((h.registered.tagged x hx).tags id hmem (h.fresh hid).2.1) hid

/-- A tag names one of the loops after renaming exactly if it did before. -/
theorem mem_renamed_iff (hx : x ∈ c.flatten)
    (hid : id ∈ x.loopIds) : renamed mapping id ∈ ids ++ c.names.map (renamed mapping) ↔ id ∈ ids := by
  rw [mem_append]
  cases hlookup : mapping.lookup id with
  | none =>
    have hsame : renamed mapping id = id := by rw [renamed, hlookup, Option.getD_none]
    rw [hsame]
    exact or_iff_left fun hmem => h.not_mem_tags hx hmem hid
  | some j =>
    have hsame : renamed mapping id = j := by rw [renamed, hlookup, Option.getD_some]
    obtain ⟨hnone, -⟩ := h.mapped (id, j) (Relooped.mem_of_lookup hlookup)
    constructor
    · rintro (hj | hj)
      · have hsome := h.registered.known _ hj
        rw [hsame, hnone] at hsome
        cases hsome
      · obtain ⟨i, hi, hij⟩ := mem_map.1 hj
        obtain ⟨i', hi'⟩ := h.exists_new hi
        rw [hsame, renamed, hi', Option.getD_some] at hij
        obtain rfl : id = i := h.injective hlookup (hij ▸ hi')
        exact h.registered.labelled.mem_of_mem_names hi
    · intro hmem
      rcases h.registered.labelled.exists_around hx hmem hid with hpath | ⟨b', e', body', hloops, hname, -⟩
      · have hnone := h.lookup_outer (h.mem_outer hpath).1
        rw [hlookup] at hnone
        cases hnone
      · exact .inr (mem_map_of_mem (Code.mem_names_iff.2 ⟨b', e', body', hloops, hname⟩))

theorem real_of_renamed (hid : (renamed mapping id).isSentinel = false) : id.isSentinel = false := by
  cases hlookup : mapping.lookup id with
  | none => rwa [renamed, hlookup, Option.getD_none] at hid
  | some j => exact ((h.keys id).1 (by rw [hlookup]; rfl)).2.1

end

section Copy

variable (copy : Expr → Expr) (htags : ∀ x ∈ c.flatten, (copy x).loopIds = x.loopIds.map (renamed mapping))
  (hnames : ∀ x ∈ c.flatten, (copy x).loop = x.loop.map fun l => { l with id := renamed mapping l.id })
  (hkinds : ∀ x ∈ c.flatten, (copy x).kind = x.kind)

include htags hnames

theorem labelled_copy (h : Recopied move loops loops' mapping ids path outer c) :
    (c.append (c.map copy)).Labelled (ids ++ c.names.map (renamed mapping)) path := by
  refine Code.labelled_append.2 ⟨h.registered.labelled.grow fun x hx id hid => h.not_mem_tags hx hid, ?_⟩
  have hmap := h.registered.labelled.map htags hnames (fun x hx id hid => h.mem_renamed_iff hx hid)
    fun id hid => mem_append_right _ (mem_map_of_mem hid)
  rwa [h.map_path] at hmap

include hkinds

variable (h : Recopied move loops loops' mapping ids path outer c)

include h

theorem tagged_copy (hx : x ∈ c.flatten) : (copy x).Tagged loops' := by
  refine ⟨fun id hid hs => ?_, fun hkind l hl => ?_⟩
  · rw [htags x hx] at hid
    obtain ⟨j, hj, rfl⟩ := mem_map.1 hid
    exact h.renamed fun hsame => (h.registered.tagged x hx).tags j hj (hsame ▸ hs)
  · rw [hnames x hx] at hl
    obtain ⟨l0, hl0, rfl⟩ := Option.map_eq_some_iff.1 hl
    exact h.renamed fun _ => (h.registered.tagged x hx).params ((hkinds x hx).symm.trans hkind) l0 hl0

theorem registered_copy : (c.append (c.map copy)).Registered loops' (ids ++ c.names.map (renamed mapping)) path where
  labelled := h.labelled_copy copy htags hnames
  known := by
    intro id hid
    rcases mem_append.1 hid with hid | hid
    · exact h.grown id (h.registered.known id hid)
    · exact (h.fresh hid).2.2
  tagged := by
    intro y hy
    rw [Code.flatten_append, Code.flatten_map, mem_append, mem_map] at hy
    rcases hy with hy | ⟨x, hx, rfl⟩
    · exact (h.registered.tagged y hy).mono h.grown
    · exact h.tagged_copy copy htags hnames hkinds hx
  apart := by
    rw [Code.names_append, Code.names_map hnames, nodup_append]
    refine ⟨h.registered.apart, h.nodup_new, ?_⟩
    rintro i hi j hj rfl
    exact h.not_mem_fresh (h.registered.agrees.isSome hi) hj
  outside := by
    intro id hid
    rw [Code.names_append, Code.names_map hnames, mem_append, not_or]
    exact ⟨h.registered.outside id hid, h.not_mem_fresh (h.registered.known id (h.mem_outer hid).2)⟩
  agrees := by
    refine Code.agrees_append.2 ⟨?_, ?_⟩
    · exact h.registered.agrees.congr fun id hid => h.same id (h.registered.agrees.isSome hid)
    · refine h.registered.agrees.map hnames fun id hid info hinfo => ?_
      obtain ⟨j, hj⟩ := h.exists_new hid
      obtain ⟨-, info1, hinfo1, hinfo'⟩ := h.mapped (id, j) (Relooped.mem_of_lookup hj)
      obtain rfl : info1 = info := Option.some.inj (hinfo1.symm.trans hinfo)
      rw [Edit.renamed, hj, Option.getD_some]
      exact ⟨_, hinfo', rfl, rfl⟩

/-- Registered code and its copy behind it, which has loops of its own. -/
theorem relabels : Code.Relabels loops loops' ids path c (c.append (c.map copy))
    (c.names.map (renamed mapping)) where
  grown := h.grown
  fresh _ hid := h.fresh hid
  once := h.nodup_new
  names := by rw [Code.names_append, Code.names_map hnames]
  frame id _ hsome := h.same id hsome
  nonempty := by
    intro hne
    cases c with
    | done => exact absurd rfl hne
    | op x rest => exact Code.op_ne_done _ _
    | loop b e body rest => exact Code.loop_ne_done _ _ _ _
  covered := by
    intro hcov
    refine Code.covered_append.2 ⟨hcov.mono fun _ => mem_append_left _, fun y hy hnest id hid hs => ?_⟩
    rw [Code.flatten_map, mem_map] at hy
    obtain ⟨x, hx, rfl⟩ := hy
    rw [htags x hx] at hid
    obtain ⟨i, hi, rfl⟩ := mem_map.1 hid
    refine (h.mem_renamed_iff hx hi).2 (hcov x hx ?_ i hi (h.real_of_renamed hs))
    rwa [Expr.inNest, ← hkinds x hx]
  kin := by
    intro i hi info hinfo
    rw [Code.names_append, Code.names_map hnames, mem_append] at hi
    rcases hi with hi | hi
    · rw [h.same i (h.registered.agrees.isSome hi)] at hinfo
      exact ⟨i, hi, info, hinfo, .refl info⟩
    · obtain ⟨j, hj, rfl⟩ := mem_map.1 hi
      obtain ⟨j', hlookup⟩ := h.exists_new hj
      obtain ⟨-, info1, hinfo1, hinfo'⟩ := h.mapped (j, j') (Relooped.mem_of_lookup hlookup)
      rw [renamed, hlookup, Option.getD_some, hinfo'] at hinfo
      obtain rfl := Option.some.inj hinfo
      exact ⟨j, hj, info1, hinfo1, rfl, rfl⟩
  registered := h.registered_copy copy htags hnames hkinds

end Copy

end Recopied

end Edit

/-! ## Ranges and insertions -/

namespace Kernel

/-- A walk up to what follows a part of it takes that part. -/
theorem upTo_append {xs post : List ExprId} (h : (xs ++ post).Nodup) :
    upTo post.head? (xs ++ post) = (xs, true) := by
  induction xs with
  | nil => cases post <;> simp [upTo]
  | cons x xs ih =>
    have hx : some x ≠ post.head? := fun hx =>
      (nodup_cons.1 h).1 (mem_append_right xs (mem_of_head? hx.symm))
    rw [cons_append, upTo, if_neg hx, ih (nodup_cons.1 h).2]

namespace Lists

variable {pre post : List Expr} {x : Expr}

theorem range? {rest : List Expr} (h : k.Lists (pre ++ x :: (rest ++ post))) :
    k.range? (some x.id) (post.head?.map Expr.id) = some ((x :: rest).map Expr.id) := by
  have hwalk : k.walkFrom (some x.id) = (x :: rest).map Expr.id ++ post.map Expr.id := by
    rw [Kernel.walkFrom, h.behind, map_append]
    rfl
  have hnodup : ((x :: rest).map Expr.id ++ post.map Expr.id).Nodup := by
    have hall := h.nodup
    rw [map_append] at hall
    simpa using (nodup_append.1 hall).2.1
  rw [Kernel.range?, hwalk, ← head?_map, upTo_append hnodup]

/-- The tensors private to a part of the list are those that the rest does not read. -/
theorem privateTo_eq (h : k.Lists (pre ++ xs ++ post)) (hout : ReadIn out (pre ++ post))
    (t : Tensor) :
    k.privateTo (xs.map Expr.id) t = !out.contains t.id := by
  rw [Bool.eq_iff_iff]
  simp only [privateTo, all_eq_true, contains_iff_mem, Bool.not_eq_true', ← Bool.not_eq_true, hout]
  constructor
  · rintro hall ⟨x, hx, hxt⟩
    have hxs : x ∈ pre ++ xs ++ post := by
      simp only [mem_append] at hx ⊢
      tauto
    obtain ⟨u, hu, hid⟩ := mem_map.1 hxt
    obtain ⟨index, hindex⟩ := mem_iff_getElem?.1 hu
    have hport := hall ⟨x.id, .input, index⟩ (h.mem_consumers.2 ⟨x, hxs, rfl, rfl, u, hindex, hid.symm⟩)
    obtain ⟨y, hy, hyx⟩ := mem_map.1 hport
    obtain rfl : y = x := h.eq_of_id (by simp [hy]) hxs hyx
    have hnodup := List.Nodup.of_map _ h.nodup
    rcases mem_append.1 hx with hx | hx
    · exact disjoint_of_nodup_append (nodup_append.1 hnodup).1 hx hy
    · exact disjoint_of_nodup_append hnodup (mem_append_right pre hy) hx
  · intro hnone p hp
    obtain ⟨x, hx, hpx, -, u, hu, hid⟩ := h.mem_consumers.1 hp
    have hread : t.id ∈ x.inputIds := hid ▸ mem_map_of_mem (mem_of_getElem? hu)
    rw [hpx]
    simp only [mem_append] at hx
    rcases hx with (hx | hx) | hx
    · exact absurd ⟨x, by simp [hx], hread⟩ hnone
    · exact mem_map_of_mem hx
    · exact absurd ⟨x, by simp [hx], hread⟩ hnone

/-- Copying a part of the list. -/
theorem copyRange (h : k.Lists (pre ++ xs ++ post)) {start stop : Option ExprId}
    (hrange : k.range? start stop = some (xs.map Expr.id)) (hout : ReadIn out (pre ++ post))
    (hnames : names = freshNames ((xs.flatMap Expr.outputs).filter fun t => !out.contains t.id) [] k.nextTensor) :
    ∃ number exprs, Edit.Numbered { k with nextTensor := names.2 } names.1 xs number exprs ∧
      Edit.copyRange start stop k = .ok { pairs := xs.map fun y => (y.id, number y.id), tensors := names.1 }
        { k with nextTensor := names.2, exprs } := by
  have hexprs : (xs.map Expr.id).map k.expr = xs := by
    rw [map_map]
    calc xs.map (k.expr ∘ Expr.id) = xs.map id :=
          map_congr_left fun y hy => h.read y (mem_append_left post (mem_append_right pre hy))
      _ = xs := map_id _
  have houtputs : ((xs.map Expr.id).flatMap fun e => (k.expr e).outputs) = xs.flatMap Expr.outputs := by
    rw [← flatMap_map k.expr Expr.outputs, hexprs]
  have hown : ((xs.map Expr.id).flatMap fun e => (k.expr e).outputs).filter
      (k.privateTo (xs.map Expr.id)) = (xs.flatMap Expr.outputs).filter fun t => !out.contains t.id := by
    rw [houtputs, funext (h.privateTo_eq hout)]
  have hnodup : (xs.map Expr.id).Nodup := by
    have hall := h.nodup
    rw [map_append, map_append] at hall
    exact (nodup_append.1 (nodup_append.1 hall).1).2.1
  obtain ⟨number, exprs, hnum, hrun⟩ :=
    Edit.mapM_copyExpr_run names.1 hnodup ({ k with nextTensor := names.2 } : Kernel)
  refine ⟨number, exprs, hnum, ?_⟩
  unfold Edit.copyRange
  rw [get_bind_run, hrange]
  simp only [hown, hexprs]
  rw [bind_run_ok (Edit.copyTensors_run _ k), ← hnames]
  exact (bind_run_ok hrun).trans rfl

/-- New expressions are inserted one after the other before what follows `pre`. -/
theorem insertAll (h : k.Lists (pre ++ post)) (ys : List Expr) (hread : ∀ y ∈ ys, k.expr y.id = y)
    (hmade : ∀ y ∈ ys, y.id < k.exprs.size) (hnew : ∀ y ∈ ys, ∀ x ∈ pre ++ post, x.id ≠ y.id)
    (hnodup : (ys.map Expr.id).Nodup)
    (hknown : ∀ y ∈ ys, ∀ t, t ∈ y.inputs ∨ t ∈ y.outputs → t.id < k.nextTensor) :
    ∃ order, let k' := { k with
        order
        consumed := k.consumed ++ ys.flatMap fun y => Edit.links y.id .input y.inputs
        produced := k.produced ++ ys.flatMap fun y => Edit.links y.id .output y.outputs }
      (ys.map Expr.id).forM (fun e => Edit.insertBefore e (post.head?.map Expr.id)) k = .ok ⟨⟩ k' ∧
      k'.Lists (pre ++ (ys ++ post)) := by
  induction ys generalizing k pre with
  | nil => exact ⟨k.order, by simp; rfl, by simpa using h⟩
  | cons y ys ih =>
    rw [map_cons, nodup_cons] at hnodup
    rw [forall_mem_cons] at hread hmade hnew hknown
    let k1 := Edit.placed y.id (post.head?.map Expr.id) k
    have hlists1 : k1.Lists ((pre ++ [y]) ++ post) := by
      simpa using h.place hread.1 hmade.1 hnew.1 hknown.1
    have hconsumed : k1.consumed = k.consumed ++ Edit.links y.id .input y.inputs := by
      show k.consumed ++ Edit.links y.id .input (k.expr y.id).inputs = _
      rw [hread.1]
    have hproduced : k1.produced = k.produced ++ Edit.links y.id .output y.outputs := by
      show k.produced ++ Edit.links y.id .output (k.expr y.id).outputs = _
      rw [hread.1]
    obtain ⟨order, hrun, hlists⟩ := ih hlists1 hread.2 hmade.2 (fun z hz w hw => by
        simp only [mem_append, mem_singleton] at hw
        rcases hw with (hw | rfl) | hw
        · exact hnew.2 z hz w (by simp [hw])
        · exact fun hid => hnodup.1 (hid ▸ mem_map_of_mem hz)
        · exact hnew.2 z hz w (by simp [hw])) hnodup.2 hknown.2
    rw [hconsumed, hproduced, append_assoc, append_assoc] at hrun hlists
    refine ⟨order, (bind_run_ok (h.insertBefore_run hnew.1)).trans hrun, ?_⟩
    rw [append_assoc] at hlists
    exact hlists

end Lists

end Kernel

/-! ## A piece followed by its copy -/

theorem RangeCopy.rename_cases (table : List (TensorId × Tensor)) (t : Tensor) :
    table.lookup t.id = none ∧ rename table t = t ∨ table.lookup t.id = some (rename table t) := by
  rw [rename]
  cases hl : table.lookup t.id with
  | none => exact .inl ⟨rfl, rfl⟩
  | some u => exact .inr rfl

/-- A piece of a list is copied: the names it makes and nobody else reads are renamed to fresh
    ones. -/
structure Copied (pre xs post : List Expr) (n n' : TensorId) (table : List (TensorId × Tensor))
    (copy : Expr → Expr) : Prop where
  fresh : FreshTable table n n'
  own : ∀ i, (table.lookup i).isSome ↔ (∃ x ∈ xs, i ∈ x.outputIds) ∧ ∀ x ∈ pre ++ post, i ∉ x.inputIds
  known : ∀ x ∈ pre ++ xs ++ post, ∀ t, t ∈ x.inputs ∨ t ∈ x.outputs → t.id < n
  apart : ∀ x ∈ xs, x ∉ pre ++ post
  image : ∀ x ∈ xs, (copy x).core = (x.rename table).core

namespace Copied

variable {pre post : List Expr} {copy : Expr → Expr} {x b e : Expr} {c : Code}
  (h : Copied pre xs post n n' table copy)

include h

theorem kind (hx : x ∈ xs) : (copy x).kind = x.kind := by
  have hkind := congrArg Expr.kind (h.image x hx)
  exact hkind

theorem inputs (hx : x ∈ xs) : (copy x).inputs = x.inputs.map (RangeCopy.rename table) :=
  congrArg Expr.inputs (h.image x hx)

theorem outputs (hx : x ∈ xs) : (copy x).outputs = x.outputs.map (RangeCopy.rename table) :=
  congrArg Expr.outputs (h.image x hx)

/-- A renamed tensor has a fresh name, any other its own. -/
theorem rename_id (t : Tensor) : n ≤ (RangeCopy.rename table t).id ∨
    (RangeCopy.rename table t).id = t.id := by
  rcases RangeCopy.rename_cases table t with ⟨-, hsame⟩ | hlookup
  · exact .inr (congrArg Tensor.id hsame)
  · exact .inl (h.fresh.fresh t.id _ hlookup).1

theorem rename_lt (ht : t.id < n) : (RangeCopy.rename table t).id < n' := by
  rcases RangeCopy.rename_cases table t with ⟨-, hsame⟩ | hlookup
  · rw [hsame]
    exact Nat.lt_of_lt_of_le ht h.fresh.le
  · exact (h.fresh.fresh t.id _ hlookup).2

/-- Renaming does not merge a name with another one. -/
theorem eq_of_rename_id (ht : t.id < n) (hu : (table.lookup u.id).isSome)
    (hid : (RangeCopy.rename table t).id = (RangeCopy.rename table u).id) : t.id = u.id := by
  have hu' : table.lookup u.id = some (RangeCopy.rename table u) := by
    rcases RangeCopy.rename_cases table u with ⟨hnone, -⟩ | hlookup
    · rw [hnone] at hu
      cases hu
    · exact hlookup
  rcases RangeCopy.rename_cases table t with ⟨-, hsame⟩ | ht'
  · rw [hsame] at hid
    exact absurd ht (Nat.not_lt.2 (hid ▸ (h.fresh.fresh u.id _ hu').1))
  · exact h.fresh.injective t.id u.id _ _ ht' hu' hid

theorem evolves : Evolves n xs (xs ++ xs.map copy) := by
  have hcase : ∀ y ∈ xs ++ xs.map copy, y ∈ xs ∨ ∃ x ∈ xs, copy x = y := fun y hy => by simpa using hy
  refine ⟨fun y hy t ht => ?_, fun y hy t ht => ?_, fun t ht => ⟨?_, ?_⟩⟩
  · rcases hcase y hy with hy | ⟨x, hx, rfl⟩
    · exact .inr ⟨y, hy, ht⟩
    · rw [Expr.inputIds, h.inputs hx, map_map] at ht
      obtain ⟨u, hu, rfl⟩ := mem_map.1 ht
      exact (h.rename_id u).imp_right fun hid => ⟨x, hx, mem_map.2 ⟨u, hu, hid.symm⟩⟩
  · rcases hcase y hy with hy | ⟨x, hx, rfl⟩
    · exact .inr ⟨y, hy, ht⟩
    · rw [Expr.outputIds, h.outputs hx, map_map] at ht
      obtain ⟨u, hu, rfl⟩ := mem_map.1 ht
      exact (h.rename_id u).imp_right fun hid => ⟨x, hx, mem_map.2 ⟨u, hu, hid.symm⟩⟩
  · rintro ⟨y, hy, hkind, hty⟩
    rcases hcase y hy with hy | ⟨x, hx, rfl⟩
    · exact ⟨y, hy, hkind, hty⟩
    · rw [Expr.inputIds, h.inputs hx, map_map] at hty
      obtain ⟨u, hu, rfl⟩ := mem_map.1 hty
      rcases h.rename_id u with hge | hid
      · exact absurd ht (Nat.not_lt.2 hge)
      · exact ⟨x, hx, (h.kind hx).symm.trans hkind, mem_map.2 ⟨u, hu, hid.symm⟩⟩
  · rintro ⟨x, hx, hkind, hxt⟩
    exact ⟨x, mem_append_left _ hx, hkind, hxt⟩

/-- Markers of the piece stay tied, and so are their copies. -/
theorem tied (hb : b ∈ xs) (he : e ∈ xs) (htied : Code.Tied (pre ++ xs ++ post) b e) :
    Code.Tied (pre ++ (xs ++ xs.map copy) ++ post) b e ∧
      Code.Tied (pre ++ (xs ++ xs.map copy) ++ post) (copy b) (copy e) := by
  obtain ⟨t, hout, hlast, hmakes, hreads⟩ := htied.tie
  have hlist : ∀ x ∈ xs, x ∈ pre ++ xs ++ post := fun x hx => by simp [hx]
  have hcase : ∀ y ∈ pre ++ (xs ++ xs.map copy) ++ post, y ∈ pre ++ xs ++ post ∨ ∃ x ∈ xs, copy x = y := by
    intro y hy
    simp only [mem_append, mem_map] at hy ⊢
    tauto
  have ht : t.id < n := h.known b (hlist b hb) t (.inr (by simp [hout]))
  -- only the closing marker reads the tie, so the tie is renamed
  have hown : (table.lookup t.id).isSome := by
    refine (h.own t.id).2 ⟨⟨b, hb, by simp [Expr.outputIds, hout]⟩, fun x hx hxt => ?_⟩
    obtain ⟨u, hu, hid⟩ := mem_map.1 hxt
    have hxe : x = e := hreads x (by simp only [mem_append] at hx ⊢; tauto) u hu hid
    exact h.apart e he (hxe ▸ hx)
  have hne : ∀ u : Tensor, u.id < n → u.id ≠ (RangeCopy.rename table t).id := by
    intro u hu hid
    rcases RangeCopy.rename_cases table t with ⟨hnone, -⟩ | hlookup
    · rw [hnone] at hown
      cases hown
    · exact absurd hu (Nat.not_lt.2 (hid ▸ (h.fresh.fresh t.id _ hlookup).1))
  have hkeeps : ∀ u : Tensor, u.id < n → (RangeCopy.rename table u).id ≠ t.id := by
    intro u hu hid
    rcases RangeCopy.rename_cases table u with ⟨hnone, hsame⟩ | hlookup
    · rw [hsame] at hid
      rw [hid] at hnone
      rw [hnone] at hown
      cases hown
    · exact absurd ht (Nat.not_lt.2 (hid ▸ (h.fresh.fresh u.id _ hlookup).1))
  constructor
  · refine htied.frame fun t' hout' _ y hy => ?_
    obtain rfl : t' = t := by simpa using hout'.symm.trans hout
    refine (hcase y hy).imp_right ?_
    rintro ⟨x, hx, rfl⟩
    rw [h.outputs hx, h.inputs hx]
    refine ⟨fun u hu => ?_, fun u hu => ?_⟩
    · obtain ⟨v, hv, rfl⟩ := mem_map.1 hu
      exact hkeeps v (h.known x (hlist x hx) v (.inr hv))
    · obtain ⟨v, hv, rfl⟩ := mem_map.1 hu
      exact hkeeps v (h.known x (hlist x hx) v (.inl hv))
  · refine ⟨(h.kind hb).trans htied.opens, (h.kind he).trans htied.closes, RangeCopy.rename table t, ?_, ?_,
      fun y hy u hu hid => ?_, fun y hy u hu hid => ?_⟩
    · rw [h.outputs hb, hout]
      rfl
    · rw [h.inputs he, getLast?_map, hlast]
      rfl
    · rcases hcase y hy with hy | ⟨x, hx, rfl⟩
      · exact absurd hid (hne u (h.known y hy u (.inr hu)))
      · rw [h.outputs hx] at hu
        obtain ⟨v, hv, rfl⟩ := mem_map.1 hu
        have hvt := h.eq_of_rename_id (h.known x (hlist x hx) v (.inr hv)) hown hid
        rw [hmakes x (hlist x hx) v hv hvt]
    · rcases hcase y hy with hy | ⟨x, hx, rfl⟩
      · exact absurd hid (hne u (h.known y hy u (.inl hu)))
      · rw [h.inputs hx] at hu
        obtain ⟨v, hv, rfl⟩ := mem_map.1 hu
        have hvt := h.eq_of_rename_id (h.known x (hlist x hx) v (.inl hv)) hown hid
        rw [hreads x (hlist x hx) v hv hvt]

/-- Code of the piece stays nested, and so is its copy. -/
theorem nested (hc : c.Nested (pre ++ xs ++ post)) (hsub : ∀ x ∈ c.flatten, x ∈ xs) :
    c.Nested (pre ++ (xs ++ xs.map copy) ++ post) ∧
      (c.map copy).Nested (pre ++ (xs ++ xs.map copy) ++ post) := by
  induction c with
  | done => exact ⟨trivial, trivial⟩
  | op x rest ih =>
    obtain ⟨hrest, hcopy⟩ := ih hc.2 fun y hy => hsub y (by simp [Code.flatten, hy])
    have hkind : (copy x).kind.isMarker = false := by
      rw [h.kind (hsub x (by simp [Code.flatten]))]
      exact hc.1
    exact ⟨⟨hc.1, hrest⟩, hkind, hcopy⟩
  | loop b e body rest ihbody ihrest =>
    obtain ⟨hbody, hbodyCopy⟩ := ihbody hc.2.1 fun y hy => hsub y (by simp [Code.flatten, hy])
    obtain ⟨hrest, hrestCopy⟩ := ihrest hc.2.2 fun y hy => hsub y (by simp [Code.flatten, hy])
    obtain ⟨htied, htiedCopy⟩ :=
      h.tied (hsub b (by simp [Code.flatten])) (hsub e (by simp [Code.flatten])) hc.1
    exact ⟨⟨htied, hbody, hrest⟩, htiedCopy, hbodyCopy, hrestCopy⟩

end Copied

namespace Kernel.Lists

variable {pre post : List Expr}

/-- What copying a part of the list needs to know of its names. -/
theorem copied (h : k.Lists (pre ++ xs ++ post)) (hout : ReadIn out (pre ++ post))
    (hnames : names = freshNames ((xs.flatMap Expr.outputs).filter fun t => !out.contains t.id) [] k.nextTensor)
    {copy : Expr → Expr} (hcopy : ∀ x ∈ xs, (copy x).core = (x.rename names.1).core) :
    Copied pre xs post k.nextTensor names.2 names.1 copy := by
  obtain ⟨hfresh, hkeys⟩ := freshNames_spec ((xs.flatMap Expr.outputs).filter fun t => !out.contains t.id)
    (FreshTable.nil k.nextTensor)
  rw [← hnames] at hfresh hkeys
  refine ⟨hfresh, fun i => ?_, h.known, fun x hx hmem => ?_, hcopy⟩
  · rw [hkeys i]
    simp only [lookup_nil, Option.isSome_none, Bool.false_eq_true, false_or, mem_filter, mem_flatMap,
      Bool.not_eq_true', ← Bool.not_eq_true, contains_iff_mem, hout]
    constructor
    · rintro ⟨t, ⟨⟨x, hx, ht⟩, hnot⟩, rfl⟩
      exact ⟨⟨x, hx, mem_map_of_mem ht⟩, fun y hy hyt => hnot ⟨y, hy, hyt⟩⟩
    · rintro ⟨⟨x, hx, hxi⟩, hnot⟩
      obtain ⟨t, ht, rfl⟩ := mem_map.1 hxi
      exact ⟨t, ⟨⟨x, hx, ht⟩, fun ⟨y, hy, hyt⟩ => hnot y hy hyt⟩, rfl⟩
  · have hnodup := h.nodup.of_map
    rcases mem_append.1 hmem with hmem | hmem
    · exact disjoint_of_nodup_append (nodup_append.1 hnodup).1 hmem hx
    · exact disjoint_of_nodup_append hnodup (mem_append_right pre hx) hmem

/-- Inserting copies that have been made. -/
theorem insertCopies {front back : List Expr} (h : k.Lists (front ++ back))
    {copy : Expr → Expr} (hcopied : Copied pre xs post k.nextTensor n' table copy) (hsize : k.exprs.size ≤ exprs.size)
    (hold : ∀ i < k.exprs.size, ({ k with nextTensor := n', exprs, loops } : Kernel).expr i = k.expr i)
    (hread : ∀ x ∈ xs, ({ k with nextTensor := n', exprs, loops } : Kernel).expr (copy x).id = copy x)
    (hmade : ∀ x ∈ xs, k.exprs.size ≤ (copy x).id ∧ (copy x).id < exprs.size)
    (hnodup : ((xs.map copy).map Expr.id).Nodup) :
    ∃ order, let k' := { k with
        nextTensor := n'
        exprs
        loops
        order
        consumed := k.consumed ++ (xs.map copy).flatMap fun y => Edit.links y.id .input y.inputs
        produced := k.produced ++ (xs.map copy).flatMap fun y => Edit.links y.id .output y.outputs }
      ((xs.map copy).map Expr.id).forM (fun e => Edit.insertBefore e (back.head?.map Expr.id))
        { k with nextTensor := n', exprs, loops } = .ok ⟨⟩ k' ∧
      k'.Lists (front ++ (xs.map copy ++ back)) := by
  have hlists : ({ k with nextTensor := n', exprs, loops } : Kernel).Lists (front ++ back) :=
    h.congr rfl rfl rfl hsize hcopied.fresh.le fun x hx => hold x.id (h.made x hx)
  refine hlists.insertAll (xs.map copy) (forall_mem_map.2 hread)
    (forall_mem_map.2 fun x hx => (hmade x hx).2) (forall_mem_map.2 fun x hx y hy hid => ?_) hnodup
    (forall_mem_map.2 fun x hx t ht => ?_)
  · exact absurd (h.made y hy) (Nat.not_lt.2 (hid ▸ (hmade x hx).1))
  · have hknown := hcopied.known x (by simp [hx])
    rw [hcopied.inputs hx, hcopied.outputs hx] at ht
    rcases ht with ht | ht
    · obtain ⟨u, hu, rfl⟩ := mem_map.1 ht
      exact hcopied.rename_lt (hknown u (.inl hu))
    · obtain ⟨u, hu, rfl⟩ := mem_map.1 ht
      exact hcopied.rename_lt (hknown u (.inr hu))

end Kernel.Lists

end KernelLoops
