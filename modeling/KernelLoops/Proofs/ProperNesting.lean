import Mathlib.Data.List.TakeWhile
import KernelLoops.Pass.Markers
import KernelLoops.Proofs.Brackets

set_option autoImplicit false

/-! # Proper nesting

What it means for the loops that tag a kernel to be properly nested, and the code that such a kernel
stands for while its loops get their markers: each expression lies in the loops inserted so far that
tag it, and a run of expressions in the same loops can be wrapped in one more. -/

namespace KernelLoops

open List

variable {rest : Code} {x : Expr} {l : LoopParams} {around inner outer : List LoopId} {id : LoopId}

/-! ## Proper nesting -/

section Contiguous

variable {α : Type} {p : α → Bool} {xs : List α}

/-- The items with a property stand next to each other. -/
def Contiguous (p : α → Bool) (xs : List α) : Prop :=
  ∀ y ∈ (xs.dropWhile fun a => !p a).dropWhile p, p y = false

instance (p : α → Bool) (xs : List α) : Decidable (Contiguous p xs) :=
  inferInstanceAs (Decidable (∀ y ∈ (xs.dropWhile fun a => !p a).dropWhile p, p y = false))

/-- Contiguous items divide a list into what precedes them, themselves and what follows. -/
theorem Contiguous.split (h : Contiguous p xs) :
    ∃ before run after, xs = before ++ run ++ after ∧ (∀ a ∈ before, p a = false) ∧
      (∀ a ∈ run, p a = true) ∧ ∀ a ∈ after, p a = false := by
  refine ⟨xs.takeWhile fun a => !p a, (xs.dropWhile fun a => !p a).takeWhile p,
    (xs.dropWhile fun a => !p a).dropWhile p, ?_, fun a ha => ?_, fun a ha => ?_, h⟩
  · rw [append_assoc, takeWhile_append_dropWhile, takeWhile_append_dropWhile]
  · have hp := mem_takeWhile_imp ha
    simpa using hp
  · exact mem_takeWhile_imp ha

/-- An item without the property has those that have it on one side only. -/
theorem Contiguous.divide (h : Contiguous p xs) {left right : List α} {y : α}
    (hxs : xs = left ++ y :: right) (hy : p y = false) :
    (∀ a ∈ left, p a = false) ∨ ∀ a ∈ right, p a = false := by
  by_cases hleft : (left.dropWhile fun a => !p a).isEmpty
  · refine .inl fun a ha => ?_
    have hnot := dropWhile_eq_nil_iff.1 (List.isEmpty_iff.1 hleft) a ha
    simpa using hnot
  · refine .inr fun a ha => h a ?_
    rw [hxs, dropWhile_append, if_neg hleft, dropWhile_append]
    split
    · simp [hy, ha]
    · simp [ha]

end Contiguous

namespace LoopId

/-- Two expressions with these levels share exactly the loops of a common outer part. -/
def agree : List LoopId → List LoopId → Bool
  | a :: as, b :: bs =>
    if a = b || (a.isSentinel && b.isSentinel) then agree as bs
    else (a :: as).all fun id => id.isSentinel || !(b :: bs).contains id
  | _, _ => true

/-- The loops among the levels. -/
def loops (ids : List LoopId) : List LoopId := ids.filter fun id => !id.isSentinel

theorem loops_append (as bs : List LoopId) : loops (as ++ bs) = loops as ++ loops bs :=
  filter_append as bs

theorem mem_loops {ids : List LoopId} : id ∈ loops ids ↔ id ∈ ids ∧ id.isSentinel = false := by
  simp [loops]

/-- Is the innermost of the levels a loop? -/
def endInLoop (ids : List LoopId) : Bool := ids.getLast?.any fun id => !id.isSentinel

theorem endInLoop_append (ids : List LoopId) (id : LoopId) :
    endInLoop (ids ++ [id]) = !id.isSentinel := by
  simp [endInLoop]

/-- Where the loops are at adjacent levels, there is a loop outside a loop exactly if there is one
    at the next level. -/
theorem endInLoop_eq (hid : id.isSentinel = false)
    (hadjacent : Contiguous (fun id => !id.isSentinel) (outer ++ id :: inner)) :
    endInLoop outer = !(loops outer).isEmpty := by
  rcases eq_nil_or_concat outer with rfl | ⟨init, o, rfl⟩
  · rfl
  · rw [concat_eq_append] at hadjacent ⊢
    rw [endInLoop_append, loops_append]
    cases ho : o.isSentinel with
    | false => simp [loops, ho]
    | true =>
      have hinit : loops init = [] := by
        rcases hadjacent.divide (show _ = init ++ o :: id :: inner by simp) (by simp [ho]) with hleft | hright
        · rw [loops, filter_eq_nil_iff]
          intro i hi
          simpa using hleft i hi
        · have hsent := hright id mem_cons_self
          rw [hid] at hsent
          cases hsent
      have hlast : loops [o] = [] := by simp [loops, ho]
      simp [hinit, hlast]

/-- A shared loop stands at the same level, and the loops outside it are shared as well. -/
theorem outer_eq_of_agree {outer' inner' : List LoopId}
    (hagree : agree (outer ++ id :: inner) (outer' ++ id :: inner') = true) (hid : id.isSentinel = false)
    (hout : id ∉ outer) (hout' : id ∉ outer') : outer.length = outer'.length ∧ loops outer = loops outer' := by
  induction outer generalizing outer' with
  | nil =>
    cases outer' with
    | nil => exact ⟨rfl, rfl⟩
    | cons b bs =>
      have hne : id ≠ b := fun h => hout' (h ▸ mem_cons_self)
      simp [agree, hne, hid] at hagree
  | cons a as ih =>
    rw [mem_cons, not_or] at hout
    cases outer' with
    | nil =>
      simp [agree, Ne.symm hout.1, hid] at hagree
    | cons b bs =>
      rw [mem_cons, not_or] at hout'
      rw [cons_append, cons_append, agree] at hagree
      split at hagree
      · next hab =>
          obtain ⟨hlen, htail⟩ := ih hagree hout.2 hout'.2
          refine ⟨congrArg Nat.succ hlen, ?_⟩
          simp only [loops] at htail ⊢
          rcases Bool.or_eq_true_iff.1 hab with hab | hab
          · rw [of_decide_eq_true hab, filter_cons, filter_cons, htail]
          · rw [Bool.and_eq_true] at hab
            simp [hab.1, hab.2, htail]
      · rw [all_eq_true] at hagree
        have hfree := hagree id (by simp)
        simp [hid] at hfree

end LoopId

/-- The loops around an expression are at adjacent levels. -/
def Kernel.Stacked (k : Kernel) : Prop :=
  ∀ x ∈ k.sequence, Contiguous (fun id => !id.isSentinel) x.loopIds

instance (k : Kernel) : Decidable k.Stacked :=
  inferInstanceAs (Decidable (∀ x ∈ k.sequence, Contiguous (fun id => !id.isSentinel) x.loopIds))

/-- The loops of a kernel are properly nested: an expression lies in each loop once and at adjacent
    levels, two expressions share the outer loops of each loop they share, the expressions of a loop
    stand next to each other, and the boundary of a loop lies on its expressions. -/
structure Kernel.ProperlyNested (k : Kernel) : Prop where
  once : ∀ x ∈ k.sequence, (LoopId.loops x.loopIds).Nodup
  adjacent : k.Stacked
  agree : ∀ x ∈ k.sequence, ∀ y ∈ k.sequence, LoopId.agree x.loopIds y.loopIds = true
  together : ∀ x ∈ k.sequence, ∀ id ∈ x.loopIds, id.isSentinel = false →
    Contiguous (·.inLoop id) k.sequence
  boundary : ∀ x ∈ k.sequence, ∀ id ∈ x.loopIds, ∀ info ∈ k.loops.get? id, ∀ p ∈ info.ports,
    ∃ y ∈ k.sequence, y.id = p.expr ∧ y.inLoop id = true

/-- The expressions of a kernel are listed, and none is a marker. -/
structure Kernel.Unmarked (k : Kernel) : Prop where
  lists : k.Lists k.sequence
  plain : ∀ x ∈ k.sequence, x.kind.isMarker = false

/-- The identifier names a registered loop. -/
def Kernel.HasLoop (k : Kernel) (id : LoopId) : Prop :=
  id.isSentinel = false ∧ (k.loops.get? id).isSome

/-- The registered loops of a kernel nest: each tags one run of expressions at one level, the
    expressions of a loop lie in the same loops outside it, and the boundary of a loop lies on its
    expressions. Levels between two loops may be free. -/
structure Kernel.WellNested (k : Kernel) : Prop where
  level : ∀ x ∈ k.sequence, ∀ y ∈ k.sequence, ∀ id outer inner outer' inner', k.HasLoop id →
    x.loopIds = outer ++ id :: inner → y.loopIds = outer' ++ id :: inner' →
    outer'.length = outer.length ∧ LoopId.loops outer' = LoopId.loops outer
  together : ∀ id, k.HasLoop id → Contiguous (·.inLoop id) k.sequence
  boundary : ∀ x ∈ k.sequence, ∀ id ∈ x.loopIds, ∀ info ∈ k.loops.get? id, ∀ p ∈ info.ports,
    ∃ y ∈ k.sequence, y.id = p.expr ∧ y.inLoop id = true

namespace Kernel

variable {k : Kernel}

/-- Loops nest where an expression lies in each loop once, two expressions share the outer loops of
    each loop they share, the expressions of a loop stand next to each other, and its boundary lies
    on them. -/
theorem WellNested.of_agree (honce : ∀ x ∈ k.sequence, (LoopId.loops x.loopIds).Nodup)
    (hagree : ∀ x ∈ k.sequence, ∀ y ∈ k.sequence, LoopId.agree x.loopIds y.loopIds = true)
    (htogether : ∀ x ∈ k.sequence, ∀ id ∈ x.loopIds, id.isSentinel = false → Contiguous (·.inLoop id) k.sequence)
    (hboundary : ∀ x ∈ k.sequence, ∀ id ∈ x.loopIds, ∀ info ∈ k.loops.get? id, ∀ p ∈ info.ports,
      ∃ y ∈ k.sequence, y.id = p.expr ∧ y.inLoop id = true) : k.WellNested := by
  have hnot : ∀ x ∈ k.sequence, ∀ id outer inner, x.loopIds = outer ++ id :: inner → id.isSentinel = false →
      id ∉ outer := by
    intro x hx id outer inner hlevels hid hmem
    have hnodup := honce x hx
    rw [hlevels, LoopId.loops_append, nodup_append] at hnodup
    exact hnodup.2.2 id (LoopId.mem_loops.2 ⟨hmem, hid⟩) id (LoopId.mem_loops.2 ⟨by simp, hid⟩) rfl
  constructor
  · intro x hx y hy id outer inner outer' inner' hid hlevels hlevels'
    exact LoopId.outer_eq_of_agree (hlevels ▸ hlevels' ▸ hagree y hy x hx) hid.1
      (hnot y hy id outer' inner' hlevels' hid.1) (hnot x hx id outer inner hlevels hid.1)
  · intro id hid
    by_cases htags : ∃ x ∈ k.sequence, id ∈ x.loopIds
    · obtain ⟨x, hx, hmem⟩ := htags
      exact htogether x hx id hmem hid.1
    · intro x hx
      have hseq := (dropWhile_sublist _).subset ((dropWhile_sublist _).subset hx)
      rw [Bool.eq_false_iff]
      intro hmem
      exact htags ⟨x, hseq, contains_iff_mem.1 hmem⟩
  · exact hboundary

theorem ProperlyNested.wellNested (hn : k.ProperlyNested) : k.WellNested :=
  .of_agree hn.once hn.agree hn.together hn.boundary

/-- An expression lies in a registered loop at one level only. -/
theorem WellNested.not_mem (hn : k.WellNested) (hx : x ∈ k.sequence)
    (hlevels : x.loopIds = outer ++ id :: inner)
    (hid : k.HasLoop id) : id ∉ outer ∧ id ∉ inner := by
  constructor
  · intro hmem
    obtain ⟨left, right, rfl⟩ := append_of_mem hmem
    have hlength := (hn.level x hx x hx id _ _ left (right ++ id :: inner) hid hlevels (by simp [hlevels])).1
    simp at hlength
  · intro hmem
    obtain ⟨left, right, rfl⟩ := append_of_mem hmem
    have hlength := (hn.level x hx x hx id _ _ (outer ++ id :: left) right hid hlevels (by simp [hlevels])).1
    simp at hlength

end Kernel

/-! ## Marked code -/

/-- The marker closes a loop with the parameters and operands that are read off the kernel. -/
def Expr.Ends (k : Kernel) (e : Expr) (l : LoopParams) (outer : Bool) : Prop :=
  e.loop = some l ∧ ∃ info operands tie, k.loops.get? l.id = some info ∧
    Markers.loopParams k l.id info outer = .ok (l, operands) ∧ e.inputs = operands ++ [tie]

/-- The markers of a loop inside the loops of `path`: they are tagged with those, and the loop knows
    whether the next level outside it has a loop that runs it again. -/
structure Code.Bounds (k : Kernel) (path : List LoopId) (b e : Expr) (l : LoopParams) : Prop where
  real : l.id.isSentinel = false
  ends : ∃ flag, e.Ends k l flag ∧ ∃ x ∈ k.sequence, ∃ outer inner, x.loopIds = outer ++ l.id :: inner ∧
    LoopId.loops outer = path ∧ flag = LoopId.endInLoop outer
  opening : LoopId.loops b.loopIds = path
  closing : LoopId.loops e.loopIds = path

theorem Code.Bounds.ends_stacked {k : Kernel} {path : List LoopId} {b e : Expr}
    (h : Code.Bounds k path b e l)
    (hk : k.Stacked) : e.Ends k l (!path.isEmpty) := by
  obtain ⟨flag, hends, x, hx, outer, inner, hlevels, rfl, rfl⟩ := h.ends
  rwa [LoopId.endInLoop_eq h.real (hlevels ▸ hk x hx)] at hends

namespace Code

/-- The loops of the code are those of the kernel that were inserted so far: each expression lies in
    those that tag it, from `path` inward, and each loop holds all expressions it tags. -/
def Marks (k : Kernel) (inserted : List LoopId) : List LoopId → Code → Prop
  | _, done => True
  | path, op x rest => x.loopIds.filter (inserted.contains ·) = path ∧ rest.Marks k inserted path
  | path, loop b e body rest => ∃ l, Bounds k path b e l ∧
      body.ops = k.sequence.filter (·.inLoop l.id) ∧ body.ops ≠ [] ∧
      body.Marks k inserted (path ++ [l.id]) ∧ rest.Marks k inserted path

variable {k : Kernel} {inserted path : List LoopId} {c : Code}

/-- What lies in the code lies in the loops around it. -/
theorem Marks.path_isPrefix (hc : c.Marks k inserted path) (hx : x ∈ c.ops) :
    path <+: x.loopIds.filter (inserted.contains ·) := by
  induction c generalizing path with
  | done => cases hx
  | op y rest ih =>
    rcases mem_cons.1 hx with rfl | hx
    · exact hc.1 ▸ prefix_rfl
    · exact ih hc.2 hx
  | loop b e body rest ihbody ihrest =>
    obtain ⟨l, -, -, -, hbody, hrest⟩ := hc
    rcases mem_append.1 hx with hx | hx
    · exact (prefix_append path [l.id]).trans (ihbody hbody hx)
    · exact ihrest hrest hx

/-- A loop whose expressions are not concerned stays marked when another loop is inserted. -/
theorem Marks.insert_other (hc : c.Marks k inserted path) (hid : ∀ x ∈ c.ops, x.inLoop id = false) :
    c.Marks k (id :: inserted) path := by
  induction c generalizing path with
  | done => trivial
  | op x rest ih =>
    refine ⟨?_, ih hc.2 fun y hy => hid y (mem_cons_of_mem x hy)⟩
    rw [← hc.1]
    apply filter_congr
    intro i hi
    have hne : i ≠ id := by
      rintro rfl
      have hfree := hid x mem_cons_self
      rw [Expr.inLoop, contains_iff_mem.2 hi] at hfree
      cases hfree
    simp [hne]
  | loop b e body rest ihbody ihrest =>
    obtain ⟨l, hends, hops, hne, hbody, hrest⟩ := hc
    exact ⟨l, hends, hops, hne, ihbody hbody fun y hy => hid y (mem_append_left _ hy),
      ihrest hrest fun y hy => hid y (mem_append_right _ hy)⟩

/-! ## Wrapping a run -/

/-- The second code has a pair of markers around a run of expressions of the first. -/
inductive Wraps (b e : Expr) (run : List Expr) : Code → Code → Prop
  | here (rest : Code) : Wraps b e run (ofOps run rest) (loop b e (ofOps run done) rest)
  | op (x : Expr) {rest rest' : Code} : Wraps b e run rest rest' → Wraps b e run (op x rest) (op x rest')
  | body (b0 e0 : Expr) {body body' : Code} (rest : Code) :
      Wraps b e run body body' → Wraps b e run (loop b0 e0 body rest) (loop b0 e0 body' rest)
  | rest (b0 e0 : Expr) (body : Code) {rest rest' : Code} :
      Wraps b e run rest rest' → Wraps b e run (loop b0 e0 body rest) (loop b0 e0 body rest')

namespace Wraps

variable {b e : Expr} {run : List Expr} {c' : Code}

theorem ops_eq (h : Wraps b e run c c') : c'.ops = c.ops := by
  induction h with
  | here rest => simp [ops]
  | op x _ ih => rw [ops, ops, ih]
  | body b0 e0 rest _ ih => rw [ops, ops, ih]
  | rest b0 e0 body _ ih => rw [ops, ops, ih]

theorem names_perm (h : Wraps b e run c c') :
    c'.names.Perm (e.loop.toList.map LoopParams.id ++ c.names) := by
  induction h with
  | here rest => rw [names, names_ofOps, names_ofOps, names, nil_append]
  | op x _ ih => exact ih
  | body b0 e0 rest _ ih =>
    rw [names, names]
    exact ((ih.append_right _).append_left _).trans (by
      rw [append_assoc]
      exact perm_append_comm_assoc _ _ _)
  | rest b0 e0 body _ ih =>
    rw [names, names]
    refine ((ih.append_left _).append_left _).trans ?_
    exact ((perm_append_comm_assoc _ _ _).append_left _).trans (perm_append_comm_assoc _ _ _)

theorem mem_ops (h : Wraps b e run c c') (hx : x ∈ run) : x ∈ c.ops := by
  induction h with
  | here rest => simp [hx]
  | op y _ ih => exact mem_cons_of_mem y ih
  | body b0 e0 rest _ ih => exact mem_append_left _ ih
  | rest b0 e0 body _ ih => exact mem_append_right _ ih

theorem of_nested_ofOps {xs : List Expr} (h : (ofOps run rest).Nested xs) :
    (ofOps run done).Nested xs ∧ rest.Nested xs := by
  induction run with
  | nil => exact ⟨trivial, h⟩
  | cons x run ih => exact ⟨⟨h.1, (ih h.2).1⟩, (ih h.2).2⟩

theorem nested (h : Wraps b e run c c') {xs : List Expr} (hc : c.Nested xs) (htied : Tied xs b e) :
    c'.Nested xs := by
  induction h with
  | here rest => exact ⟨htied, of_nested_ofOps hc⟩
  | op x _ ih => exact ⟨hc.1, ih hc.2⟩
  | body b0 e0 rest _ ih => exact ⟨hc.1, ih hc.2.1, hc.2.2⟩
  | rest b0 e0 body _ ih => exact ⟨hc.1, hc.2.1, ih hc.2.2⟩

theorem marks_ofOps (h : (ofOps run rest).Marks k inserted path) :
    (∀ x ∈ run, x.loopIds.filter (inserted.contains ·) = path) ∧ rest.Marks k inserted path := by
  induction run with
  | nil => exact ⟨by simp, h⟩
  | cons x run ih =>
    obtain ⟨hrun, hrest⟩ := ih h.2
    exact ⟨forall_mem_cons.2 ⟨h.1, hrun⟩, hrest⟩

theorem marks_of_ops (h : ∀ x ∈ run, x.loopIds.filter (inserted.contains ·) = path) :
    (ofOps run done).Marks k inserted path := by
  induction run with
  | nil => trivial
  | cons x run ih => exact ⟨h x mem_cons_self, ih fun y hy => h y (mem_cons_of_mem x hy)⟩

/-- Marked code stays marked when the markers of one more loop go around its run. -/
theorem marks (h : Wraps b e run c c') (hrun : run ≠ []) (hc : c.Marks k inserted path)
    (hnodup : c.ops.Nodup)
    (hsub : ∀ x ∈ c.ops, x ∈ k.sequence) (haround : ∀ x ∈ run, x.loopIds.filter (inserted.contains ·) = around)
    (hnew : ∀ x ∈ run, x.loopIds.filter ((l.id :: inserted).contains ·) = around ++ [l.id])
    (hall : run = k.sequence.filter (·.inLoop l.id)) (hends : Bounds k around b e l) :
    c'.Marks k (l.id :: inserted) path := by
  -- an expression of the code that is not in the run is not tagged with the loop
  have hother : ∀ x ∈ k.sequence, x ∉ run → x.inLoop l.id = false := by
    intro x hx hxrun
    rw [hall, mem_filter, not_and, Bool.not_eq_true] at hxrun
    exact hxrun hx
  induction h generalizing path with
  | here rest =>
    obtain ⟨hpath, hrest⟩ := marks_ofOps hc
    obtain ⟨x, hx⟩ := exists_mem_of_ne_nil run hrun
    obtain rfl : around = path := (haround x hx).symm.trans (hpath x hx)
    rw [ops_ofOps] at hnodup hsub
    refine ⟨l, hends, by simpa [ops] using hall, by simpa [ops] using hrun, marks_of_ops hnew,
      hrest.insert_other fun y hy => hother y (hsub y (mem_append_right _ hy)) fun hyrun => ?_⟩
    exact disjoint_of_nodup_append hnodup hyrun hy
  | op x hwrap ih =>
    rw [ops] at hnodup hsub
    have hx : x.inLoop l.id = false := hother x (hsub x mem_cons_self) fun hxrun =>
      (nodup_cons.1 hnodup).1 (hwrap.mem_ops hxrun)
    have hsingle : (Code.op x done).Marks k (l.id :: inserted) path :=
      Marks.insert_other (show (Code.op x done).Marks k inserted path from ⟨hc.1, trivial⟩)
        fun y hy => by rwa [mem_singleton.1 hy]
    exact ⟨hsingle.1, ih hc.2 (nodup_cons.1 hnodup).2 fun y hy => hsub y (mem_cons_of_mem x hy)⟩
  | body b0 e0 rest hwrap ih =>
    obtain ⟨l0, hends0, hops0, hne0, hbody, hrest⟩ := hc
    rw [ops] at hnodup hsub
    refine ⟨l0, hends0, hwrap.ops_eq.trans hops0, hwrap.ops_eq ▸ hne0,
      ih hbody (nodup_append.1 hnodup).1 fun y hy => hsub y (mem_append_left _ hy),
      hrest.insert_other fun y hy => hother y (hsub y (mem_append_right _ hy)) fun hyrun => ?_⟩
    exact disjoint_of_nodup_append hnodup (hwrap.mem_ops hyrun) hy
  | rest b0 e0 body hwrap ih =>
    obtain ⟨l0, hends0, hops0, hne0, hbody, hrest⟩ := hc
    rw [ops] at hnodup hsub
    refine ⟨l0, hends0, hops0, hne0,
      hbody.insert_other fun y hy => hother y (hsub y (mem_append_left _ hy)) fun hyrun => ?_,
      ih hrest (nodup_append.1 hnodup).2.1 fun y hy => hsub y (mem_append_right _ hy)⟩
    exact disjoint_of_nodup_append hnodup hy (hwrap.mem_ops hyrun)

end Wraps

/-- Expressions in the same loops that come first in the code stand in a row. -/
theorem Marks.eq_ofOps (hc : c.Marks k inserted path) {run after : List Expr}
    (hops : c.ops = run ++ after)
    (hrun : ∀ x ∈ run, x.loopIds.filter (inserted.contains ·) = path) : ∃ rest, c = ofOps run rest := by
  induction run generalizing c with
  | nil => exact ⟨c, rfl⟩
  | cons x run ih =>
    cases c with
    | done => cases hops
    | op y rest =>
      obtain ⟨rfl, htail⟩ := List.cons.inj hops
      obtain ⟨rest', rfl⟩ := ih hc.2 htail fun z hz => hrun z (mem_cons_of_mem y hz)
      exact ⟨rest', rfl⟩
    | loop b e body rest =>
      -- the first expression of a loop lies in one more loop than the run does
      obtain ⟨l, -, -, hne, hbody, -⟩ := hc
      obtain ⟨y, ys, hy⟩ := exists_cons_of_ne_nil hne
      rw [ops, hy] at hops
      obtain rfl : y = x := (List.cons.inj hops).1
      have hprefix := hbody.path_isPrefix (x := y) (hy ▸ mem_cons_self)
      rw [hrun y mem_cons_self] at hprefix
      have hlen := hprefix.length_le
      rw [length_append, length_singleton] at hlen
      omega

/-- A run of expressions in the same loops can be wrapped. -/
theorem Marks.exists_wraps (hc : c.Marks k inserted path) (hnodup : c.ops.Nodup)
    (hsub : ∀ x ∈ c.ops, x ∈ k.sequence)
    {before run after : List Expr} (hops : c.ops = before ++ run ++ after) (hne : run ≠ [])
    (hrun : ∀ x ∈ run, x.loopIds.filter (inserted.contains ·) = around) :
    ∃ pre post, c.flatten = pre ++ run ++ post ∧
      ∀ b e, ∃ c', Wraps b e run c c' ∧ c'.flatten = pre ++ b :: (run ++ e :: post) := by
  induction c generalizing path before after with
  | done =>
    rw [ops, append_assoc] at hops
    exact absurd (append_eq_nil_iff.1 (append_eq_nil_iff.1 hops.symm).2).1 hne
  | op x rest ih =>
    cases before with
    | nil =>
      obtain ⟨y, ys, rfl⟩ := exists_cons_of_ne_nil hne
      obtain rfl : x = y := (List.cons.inj hops).1
      obtain rfl : around = path := (hrun x mem_cons_self).symm.trans hc.1
      obtain ⟨rest', hrest⟩ := Marks.eq_ofOps hc (by simpa using hops) hrun
      rw [hrest]
      exact ⟨[], rest'.flatten, by simp, fun b e => ⟨_, .here rest', by simp [flatten]⟩⟩
    | cons y ys =>
      obtain ⟨rfl, htail⟩ := List.cons.inj hops
      obtain ⟨pre, post, hflat, hwrap⟩ := ih hc.2 (nodup_cons.1 hnodup).2
        (fun z hz => hsub z (mem_cons_of_mem x hz)) htail
      refine ⟨x :: pre, post, by simp [flatten, hflat], fun b e => ?_⟩
      obtain ⟨c', hc', hflat'⟩ := hwrap b e
      exact ⟨_, .op x hc', by simp [flatten, hflat']⟩
  | loop b0 e0 body rest ihbody ihrest =>
    obtain ⟨l, -, hall, -, hbody, hrest⟩ := hc
    have hinbody : ∀ before' after', body.ops = before' ++ run ++ after' → ∃ pre post,
        (loop b0 e0 body rest).flatten = pre ++ run ++ post ∧ ∀ b e, ∃ c',
          Wraps b e run (loop b0 e0 body rest) c' ∧ c'.flatten = pre ++ b :: (run ++ e :: post) := by
      intro before' after' hsplit
      obtain ⟨pre, post, hflat, hwrap⟩ := ihbody hbody (nodup_append.1 hnodup).1
        (fun z hz => hsub z (mem_append_left _ hz)) hsplit
      refine ⟨b0 :: pre, post ++ e0 :: rest.flatten, by simp [flatten, hflat], fun b e => ?_⟩
      obtain ⟨c', hc', hflat'⟩ := hwrap b e
      exact ⟨_, .body b0 e0 rest hc', by simp [flatten, hflat']⟩
    have hinrest : ∀ before', rest.ops = before' ++ run ++ after → ∃ pre post,
        (loop b0 e0 body rest).flatten = pre ++ run ++ post ∧ ∀ b e, ∃ c',
          Wraps b e run (loop b0 e0 body rest) c' ∧ c'.flatten = pre ++ b :: (run ++ e :: post) := by
      intro before' hsplit
      obtain ⟨pre, post, hflat, hwrap⟩ := ihrest hrest (nodup_append.1 hnodup).2.1
        (fun z hz => hsub z (mem_append_right _ hz)) hsplit
      refine ⟨b0 :: (body.flatten ++ e0 :: pre), post, by simp [flatten, hflat], fun b e => ?_⟩
      obtain ⟨c', hc', hflat'⟩ := hwrap b e
      exact ⟨_, .rest b0 e0 body hc', by simp [flatten, hflat']⟩
    rw [ops] at hops
    rcases append_eq_append_iff.1 hops with ⟨mid, hmid, htail⟩ | ⟨mid, hmid, htail⟩
    · rcases append_eq_append_iff.1 hmid.symm with ⟨mid', hbefore, hmid'⟩ | ⟨mid', hbefore, hmid'⟩
      · exact hinrest mid' (by rw [htail, hmid'])
      · cases mid with
        | nil => exact hinbody before [] (by rw [hbefore, hmid']; simp)
        | cons z zs =>
          cases mid' with
          | nil => exact hinrest [] (by rw [htail, hmid']; simp)
          | cons y ys =>
            -- a run that leaves the loop would have an expression outside it that the loop tags
            have hy : y ∈ body.ops := by simp [hbefore]
            have hz : z ∈ rest.ops := by simp [htail]
            have hpath := hbody.path_isPrefix hy
            rw [hrun y (by simp [hmid']), ← hrun z (by simp [hmid'])] at hpath
            have htag : l.id ∈ z.loopIds := (mem_filter.1 (hpath.subset (by simp))).1
            have hzbody : z ∈ body.ops := by
              rw [hall]
              exact mem_filter.2
                ⟨hsub z (mem_append_right _ hz), contains_iff_mem.2 htag⟩
            exact absurd hz (disjoint_of_nodup_append hnodup hzbody)
    · exact hinbody before mid hmid

end Code

end KernelLoops
