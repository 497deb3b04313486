import KernelLoops.Kernel.Walk
import KernelLoops.Proofs.Listing

set_option autoImplicit false

/-! # Nested code

A kernel with markers is a flat sequence; its loops are pairs of markers tied by a tensor of their
own. `Code` is the tree such a sequence stands for. Where a kernel lists the expressions of a tree
and every pair of markers is tied, running the kernel is running the tree, by recursion on it. -/

namespace KernelLoops

open List hiding flatten

variable {x : Expr} {post pre : List Expr} {σ : Type}

/-- Expressions and loops in the order they run. -/
inductive Code
  | done
  | op (x : Expr) (rest : Code)
  | loop (b e : Expr) (body rest : Code)
deriving Repr

namespace Code

theorem op_ne_done (x : Expr) (rest : Code) : op x rest ≠ done := nofun

theorem loop_ne_done (b e : Expr) (body rest : Code) : loop b e body rest ≠ done := nofun

/-- The expressions and markers in sequence. -/
def flatten : Code → List Expr
  | done => []
  | op x rest => x :: rest.flatten
  | loop b e body rest => b :: (body.flatten ++ e :: rest.flatten)

/-- The expressions that are no markers, in sequence. -/
def ops : Code → List Expr
  | done => []
  | op x rest => x :: rest.ops
  | loop _ _ body rest => body.ops ++ rest.ops

/-- The expressions that lie in no loop of the code. -/
def direct : Code → List Expr
  | done => []
  | op x rest => x :: rest.direct
  | loop _ _ _ rest => rest.direct

/-- The expressions and loops of the code, what is inside its loops not counted. -/
def items : Code → Nat
  | done => 0
  | op _ rest => rest.items + 1
  | loop _ _ _ rest => rest.items + 1

/-- Runs the code. -/
def run {σ : Type} (act : Kernel.Actions σ) : Code → EStateM Failure σ Unit
  | done => pure ()
  | op x rest => do
    act.run x
    rest.run act
  | loop b e body rest => do
    act.loop b e (body.run act)
    rest.run act

/-- Two pieces of code, one after the other. -/
def append : Code → Code → Code
  | done, c => c
  | op x rest, c => op x (rest.append c)
  | loop b e body rest, c => loop b e body (rest.append c)

theorem flatten_append (c d : Code) : (c.append d).flatten = c.flatten ++ d.flatten := by
  induction c with
  | done => rfl
  | op x rest ih => simp [append, flatten, ih]
  | loop b e body rest _ ih => simp [append, flatten, ih]

/-- Expressions in a row, and what follows them. -/
def ofOps : List Expr → Code → Code
  | [], c => c
  | x :: xs, c => op x (ofOps xs c)

/-- Two markers are tied: the opening one makes a tensor that nothing else makes, and only the
    closing one reads it, as its last operand. -/
structure Tied (xs : List Expr) (b e : Expr) : Prop where
  opens : b.kind = .loopBegin
  closes : e.kind = .loopEnd
  tie : ∃ t, b.outputs = [t] ∧ e.inputs.getLast? = some t ∧
    (∀ x ∈ xs, ∀ u ∈ x.outputs, u.id = t.id → x = b) ∧ ∀ x ∈ xs, ∀ u ∈ x.inputs, u.id = t.id → x = e

/-- Every pair of markers of the code is tied, and no marker lies outside a pair. -/
def Nested (xs : List Expr) : Code → Prop
  | done => True
  | op x rest => x.kind.isMarker = false ∧ rest.Nested xs
  | loop b e body rest => Tied xs b e ∧ body.Nested xs ∧ rest.Nested xs

/-- Every opening marker of the code finds its closing one in the kernel, and no marker lies outside
    a pair. -/
def Linked (k : Kernel) : Code → Prop
  | done => True
  | op x rest => x.kind.isMarker = false ∧ rest.Linked k
  | loop b e body rest =>
    (b.kind = .loopBegin ∧ e.kind = .loopEnd ∧ k.loopEndOf b.id = .ok e.id) ∧ body.Linked k ∧
      rest.Linked k

variable {c : Code} {xs xs' : List Expr} {b e : Expr}

@[simp] theorem flatten_ofOps (xs : List Expr) (c : Code) :
    (ofOps xs c).flatten = xs ++ c.flatten := by
  induction xs with
  | nil => rfl
  | cons x xs ih => simp [ofOps, flatten, ih]

theorem ofOps_append (xs ys : List Expr) (c : Code) :
    ofOps (xs ++ ys) c = ofOps xs (ofOps ys c) := by
  induction xs with
  | nil => rfl
  | cons x xs ih => exact congrArg (op x) ih

theorem append_ofOps (xs : List Expr) (c d : Code) :
    (ofOps xs c).append d = ofOps xs (c.append d) := by
  induction xs with
  | nil => rfl
  | cons x xs ih => exact congrArg (op x) ih

theorem append_done (c : Code) : c.append done = c := by
  induction c with
  | done => rfl
  | op x rest ih => rw [append, ih]
  | loop b e body rest _ ih => rw [append, ih]

theorem nested_ofOps {xs ys : List Expr} (hxs : ∀ x ∈ xs, x.kind.isMarker = false)
    (hc : c.Nested ys) :
    (ofOps xs c).Nested ys := by
  induction xs with
  | nil => exact hc
  | cons x xs ih => exact ⟨hxs x mem_cons_self, ih fun y hy => hxs y (mem_cons_of_mem x hy)⟩

@[simp] theorem ops_ofOps (xs : List Expr) (c : Code) : (ofOps xs c).ops = xs ++ c.ops := by
  induction xs with
  | nil => rfl
  | cons x xs ih => simp [ofOps, ops, ih]

theorem ops_sublist (c : Code) : Sublist c.ops c.flatten := by
  induction c with
  | done => exact Sublist.refl _
  | op x rest ih => exact ih.cons_cons x
  | loop b e body rest ihbody ihrest => exact ((ihbody.append (ihrest.cons e))).cons b

theorem mem_flatten_of_mem_ops (hx : x ∈ c.ops) : x ∈ c.flatten := c.ops_sublist.subset hx

theorem Nested.mem_ops (hc : c.Nested xs) (hx : x ∈ c.flatten) (hkind : x.kind.isMarker = false) :
    x ∈ c.ops := by
  induction c with
  | done => cases hx
  | op y rest ih =>
    rcases mem_cons.1 hx with rfl | hx
    · exact mem_cons_self
    · exact mem_cons_of_mem y (ih hc.2 hx)
  | loop b e body rest ihbody ihrest =>
    obtain ⟨htied, hbody, hrest⟩ := hc
    simp only [flatten, mem_cons, mem_append] at hx
    rcases hx with rfl | hx | rfl | hx
    · rw [htied.opens] at hkind
      cases hkind
    · exact mem_append_left _ (ihbody hbody hx)
    · rw [htied.closes] at hkind
      cases hkind
    · exact mem_append_right _ (ihrest hrest hx)

/-- Nesting carries over to another list where the ties do. -/
theorem Nested.imp (hc : c.Nested xs)
    (h : ∀ b ∈ c.flatten, ∀ e ∈ c.flatten, Tied xs b e → Tied xs' b e) : c.Nested xs' := by
  induction c with
  | done => trivial
  | op x rest ih =>
    exact ⟨hc.1, ih hc.2 fun b hb e he => h b (mem_cons_of_mem x hb) e (mem_cons_of_mem x he)⟩
  | loop b e body rest ihbody ihrest =>
    refine ⟨h b (by simp [flatten]) e (by simp [flatten]) hc.1, ihbody hc.2.1 fun b' hb e' he => ?_,
      ihrest hc.2.2 fun b' hb e' he => ?_⟩
    · exact h b' (by simp [flatten, hb]) e' (by simp [flatten, he])
    · exact h b' (by simp [flatten, hb]) e' (by simp [flatten, he])

theorem nested_append {c d : Code} (hc : c.Nested xs) (hd : d.Nested xs) :
    (c.append d).Nested xs := by
  induction c with
  | done => exact hd
  | op x rest ih => exact ⟨hc.1, ih hc.2⟩
  | loop b e body rest _ ih => exact ⟨hc.1, hc.2.1, ih hc.2.2⟩

theorem of_nested_append {c d : Code} (h : (c.append d).Nested xs) : c.Nested xs ∧ d.Nested xs := by
  induction c with
  | done => exact ⟨trivial, h⟩
  | op x rest ih => exact ⟨⟨h.1, (ih h.2).1⟩, (ih h.2).2⟩
  | loop b e body rest _ ih => exact ⟨⟨h.1, h.2.1, (ih h.2.2).1⟩, (ih h.2.2).2⟩

/-- Expressions that leave the tie alone may join the list. -/
theorem Tied.frame (h : Tied xs b e) (hnew : ∀ t, b.outputs = [t] → e.inputs.getLast? = some t →
      ∀ x ∈ xs', x ∈ xs ∨ (∀ u ∈ x.outputs, u.id ≠ t.id) ∧ ∀ u ∈ x.inputs, u.id ≠ t.id) :
    Tied xs' b e := by
  obtain ⟨hopens, hcloses, t, hout, hlast, hmakes, hreads⟩ := h
  refine ⟨hopens, hcloses, t, hout, hlast, fun x hx u hu hid => ?_, fun x hx u hu hid => ?_⟩
  · rcases hnew t hout hlast x hx with hx | hx
    · exact hmakes x hx u hu hid
    · exact absurd hid (hx.1 u hu)
  · rcases hnew t hout hlast x hx with hx | hx
    · exact hreads x hx u hu hid
    · exact absurd hid (hx.2 u hu)

end Code

namespace Kernel

open Code

/-- What lies behind an item that the first part does not have. -/
theorem behind_append {e : ExprId} {pre post : List ExprId} (h : e ∉ pre) :
    behind e (pre ++ e :: post) = post := by
  induction pre with
  | nil => simp [behind]
  | cons x rest ih =>
    rw [mem_cons, not_or] at h
    rw [cons_append, behind, if_neg (Ne.symm h.1), ih h.2]

/-- The number of a later expression is not among the earlier ones. -/
theorem not_mem_before (h : ((pre ++ x :: post).map Expr.id).Nodup) : x.id ∉ pre.map Expr.id := by
  rw [map_append, map_cons] at h
  intro hx
  exact disjoint_of_nodup_append h hx mem_cons_self

/-! ## Running -/

variable {k : Kernel}

/-- On a walk that starts with the code and goes on to `stop`, the kernel does what the code
    does. -/
theorem executeOn_linked (act : Actions σ) (jumps : Nat) {c : Code} (hlinked : c.Linked k)
    {tail : List Expr}
    (hread : ∀ x ∈ c.flatten, k.expr x.id = x) (hnodup : ((c.flatten ++ tail).map Expr.id).Nodup) :
    k.executeOn act (tail.head?.map Expr.id) jumps ((c.flatten ++ tail).map Expr.id) = c.run act := by
  induction c generalizing tail with
  | done =>
    cases tail with
    | nil =>
      rw [flatten, nil_append, map_nil, Kernel.executeOn]
      rfl
    | cons y ys =>
      rw [flatten, nil_append, map_cons, Kernel.executeOn]
      exact if_pos rfl
  | op x rest ih =>
    have hstop : some x.id ≠ tail.head?.map Expr.id := by
      intro hs
      obtain ⟨y, hy, hid⟩ := Option.map_eq_some_iff.1 hs.symm
      have hmem : y ∈ rest.flatten ++ tail := mem_append_right _ (mem_of_head? hy)
      exact (nodup_cons.1 hnodup).1 (hid ▸ mem_map_of_mem hmem)
    have hkind : x.kind ≠ .loopBegin := fun hk => by
      have hm := hlinked.1
      rw [hk] at hm
      cases hm
    rw [flatten, cons_append, map_cons, Kernel.executeOn, if_neg hstop, hread x mem_cons_self,
      if_neg hkind, ih hlinked.2 (fun y hy => hread y (mem_cons_of_mem x hy))
        (nodup_cons.1 hnodup).2]
    rfl
  | loop b e body rest ihbody ihrest =>
    obtain ⟨⟨hopens, -, hends⟩, hbody, hrest⟩ := hlinked
    have hstop : some b.id ≠ tail.head?.map Expr.id := by
      intro hs
      obtain ⟨y, hy, hid⟩ := Option.map_eq_some_iff.1 hs.symm
      have hmem : y ∈ body.flatten ++ e :: rest.flatten ++ tail :=
        mem_append_right _ (mem_of_head? hy)
      exact (nodup_cons.1 hnodup).1 (hid ▸ mem_map_of_mem hmem)
    have hnodup' : ((body.flatten ++ e :: (rest.flatten ++ tail)).map Expr.id).Nodup := by
      have htail := (nodup_cons.1 hnodup).2
      exact append_assoc body.flatten (e :: rest.flatten) tail ▸ htail
    have hinner := ihbody hbody (fun y hy => hread y (by simp [flatten, hy])) hnodup'
    have hcontains : ((body.flatten ++ e :: (rest.flatten ++ tail)).map Expr.id).contains e.id = true := by
      simp
    have hbehind : Kernel.behind e.id ((body.flatten ++ e :: (rest.flatten ++ tail)).map Expr.id) =
        (rest.flatten ++ tail).map Expr.id := by
      rw [map_append, map_cons, behind_append (not_mem_before hnodup')]
    have houter := ihrest hrest (fun y hy => hread y (by simp [flatten, hy]))
      (nodup_cons.1 (nodup_append.1 (by
        rwa [map_append, map_cons] at hnodup')).2.1).2
    rw [flatten, cons_append, append_assoc, cons_append, map_cons,
      Kernel.executeOn, if_neg hstop, hread b mem_cons_self, if_pos hopens, hends]
    simp only [hcontains, hbehind, houter, if_true, hread e (by simp [flatten])]
    rw [show (some e.id : Option ExprId) =
      (e :: (rest.flatten ++ tail)).head?.map Expr.id from rfl, hinner]
    rfl

/-- Running a kernel is running the code it lists, where the markers find each other. -/
theorem execute_linked (act : Actions σ) {c : Code} (horder : k.order = c.flatten.map Expr.id)
    (hread : ∀ x ∈ c.flatten, k.expr x.id = x) (hnodup : (c.flatten.map Expr.id).Nodup) (hlinked : c.Linked k) :
    k.execute act = c.run act := by
  have hrun := executeOn_linked act k.jumpLimit hlinked hread
    (show ((c.flatten ++ []).map Expr.id).Nodup by rw [append_nil]; exact hnodup)
  rw [append_nil] at hrun
  rw [Kernel.execute, horder]
  exact hrun

/-! ## Listed markers -/

namespace Lists

variable {xs : List Expr} {b e : Expr}

theorem behind (h : k.Lists (pre ++ x :: post)) : behind x.id k.order = post.map Expr.id := by
  rw [h.order, map_append, map_cons, behind_append (not_mem_before h.nodup)]

theorem next? (h : k.Lists (pre ++ x :: post)) : k.next? x.id = post.head?.map Expr.id := by
  rw [Kernel.next?, h.behind, head?_map]

/-- A tied opening marker finds its closing one. -/
theorem loopEndOf (h : k.Lists xs) (hb : b ∈ xs) (he : e ∈ xs) (htied : Tied xs b e) :
    k.loopEndOf b.id = .ok e.id := by
  obtain ⟨hopens, hcloses, t, hout, hlast, -, hreads⟩ := htied
  have hread := h.read b hb
  have hport : ∃ p ∈ k.consumers t.id, (k.expr p.expr).kind = .loopEnd := by
    obtain ⟨i, hi⟩ := mem_iff_getElem?.1 (mem_of_getLast? hlast)
    refine ⟨⟨e.id, .input, i⟩, h.mem_consumers.2 ⟨e, he, rfl, rfl, t, hi, rfl⟩, ?_⟩
    rw [h.read e he]
    exact hcloses
  have hunique : ∀ p ∈ k.consumers t.id, p.expr = e.id := by
    intro p hp
    obtain ⟨x, hx, hpx, -, u, hu, htu⟩ := h.mem_consumers.1 hp
    rw [hpx, hreads x hx u (mem_of_getElem? hu) htu.symm]
  unfold Kernel.loopEndOf
  rw [hread]
  have houtput : b.output 0 = .ok t := by
    rw [Expr.output, hout]
    rfl
  cases hfind : (k.consumers t.id).find? fun p => (k.expr p.expr).kind = .loopEnd with
  | none =>
    obtain ⟨p, hp, hkind⟩ := hport
    have := find?_eq_none.1 hfind p hp
    simp [hkind] at this
  | some p =>
    simp only [hopens, houtput, bind, Except.bind, hfind]
    exact congrArg Except.ok (hunique p (mem_of_find?_eq_some hfind))

/-- A tied closing marker finds its opening one. -/
theorem loopBeginOf (h : k.Lists xs) (hb : b ∈ xs) (he : e ∈ xs) (htied : Tied xs b e) :
    k.loopBeginOf e.id = .ok b.id := by
  obtain ⟨hopens, hcloses, t, hout, hlast, hmakes, -⟩ := htied
  have hunique : ∀ p ∈ k.producers t.id, p.expr = b.id := by
    intro p hp
    obtain ⟨x, hx, hpx, -, u, hu, htu⟩ := h.mem_producers.1 hp
    rw [hpx, hmakes x hx u (mem_of_getElem? hu) htu.symm]
  have hport : (⟨b.id, .output, 0⟩ : Port) ∈ k.producers t.id :=
    h.mem_producers.2 ⟨b, hb, rfl, rfl, t, by simp [hout], rfl⟩
  unfold Kernel.loopBeginOf
  simp only [h.read e he, hcloses, hlast]
  cases hprod : k.producers t.id with
  | nil =>
    rw [hprod] at hport
    cases hport
  | cons p ps =>
    have hp : p.expr = b.id := hunique p (hprod ▸ mem_cons_self)
    simp only [hp, h.read b hb, hopens]
    rfl

/-- The markers of nested code find each other. -/
theorem linked (h : k.Lists xs) {c : Code} (hnested : c.Nested xs)
    (hsub : ∀ x ∈ c.flatten, x ∈ xs) : c.Linked k := by
  induction c with
  | done => trivial
  | op x rest ih => exact ⟨hnested.1, ih hnested.2 fun y hy => hsub y (mem_cons_of_mem x hy)⟩
  | loop b e body rest ihbody ihrest =>
    obtain ⟨htied, hbody, hrest⟩ := hnested
    have hends := h.loopEndOf (hsub b mem_cons_self) (hsub e (by simp [flatten])) htied
    exact ⟨⟨htied.opens, htied.closes, hends⟩, ihbody hbody fun y hy => hsub y (by simp [flatten, hy]),
      ihrest hrest fun y hy => hsub y (by simp [flatten, hy])⟩

/-- Running a kernel is running the nested code it lists. -/
theorem execute (act : Actions σ) {c : Code} (h : k.Lists c.flatten) (hnested : c.Nested c.flatten) :
    k.execute act = c.run act :=
  execute_linked act h.order h.read h.nodup (h.linked hnested fun _ hx => hx)

/-! ## What lies directly in a loop -/

/-- How many steps a walk over the code takes that goes round its loops. -/
theorem length_steps_le (c : Code) : c.items ≤ c.flatten.length := by
  induction c with
  | done => exact Nat.le_refl 0
  | op x rest ih => exact Nat.succ_le_succ ih
  | loop b e body rest _ ih =>
    simp only [items, flatten, length_cons, length_append]
    omega

theorem bodyOn (h : k.Lists xs) {c : Code} (hnested : c.Nested xs) {tail : List Expr} {stop : Expr}
    (hxs : xs = pre ++ c.flatten ++ stop :: tail) {steps : Nat} (hsteps : c.items ≤ steps) :
    k.bodyOn (some stop.id) steps ((c.flatten ++ stop :: tail).map Expr.id) =
      (c.direct.map Expr.id, none) := by
  induction c generalizing pre steps with
  | done =>
    rw [flatten, nil_append, map_cons]
    cases steps <;> simp [Kernel.bodyOn, direct]
  | op x rest ih =>
    obtain ⟨n, rfl⟩ := Nat.exists_eq_add_one_of_ne_zero (show steps ≠ 0 by simp only [items] at hsteps; omega)
    have hx : x ∈ xs := by simp [hxs, flatten]
    have hstop : (some x.id : Option ExprId) ≠ some stop.id := by
      intro hs
      have hnodup := h.nodup
      rw [hxs] at hnodup
      apply not_mem_before hnodup
      rw [← Option.some.inj hs]
      simp [flatten]
    have hkind : x.kind ≠ .loopBegin := fun hk => by
      have hm := hnested.1
      rw [hk] at hm
      cases hm
    rw [flatten, cons_append, map_cons, Kernel.bodyOn, if_neg hstop, h.read x hx, if_neg hkind,
      ih hnested.2 (show xs = (pre ++ [x]) ++ rest.flatten ++ stop :: tail by simp [hxs, flatten])
        (show rest.items ≤ n by simp only [items] at hsteps; omega)]
    rfl
  | loop b e body rest _ ih =>
    obtain ⟨n, rfl⟩ := Nat.exists_eq_add_one_of_ne_zero (show steps ≠ 0 by simp only [items] at hsteps; omega)
    obtain ⟨htied, -, hrest⟩ := hnested
    have hb : b ∈ xs := by simp [hxs, flatten]
    have he : e ∈ xs := by simp [hxs, flatten]
    have hstop : (some b.id : Option ExprId) ≠ some stop.id := by
      intro hs
      have hnodup := h.nodup
      rw [hxs] at hnodup
      apply not_mem_before hnodup
      rw [← Option.some.inj hs]
      simp [flatten]
    have hxs' : xs = (pre ++ b :: body.flatten) ++ e :: (rest.flatten ++ stop :: tail) := by
      simp [hxs, flatten]
    have hbehind : Kernel.behind e.id k.order = (rest.flatten ++ stop :: tail).map Expr.id :=
      behind (hxs' ▸ h)
    rw [flatten, cons_append, map_cons, Kernel.bodyOn, if_neg hstop, h.read b hb,
      if_pos htied.opens, h.loopEndOf hb he htied]
    simp only [hbehind]
    exact ih hrest
      (show xs = (pre ++ b :: body.flatten ++ [e]) ++ rest.flatten ++ stop :: tail by simp [hxs, flatten])
      (show rest.items ≤ n by simp only [items] at hsteps; omega)

/-- What lies between two markers, nested loops left out. -/
theorem body {c : Code} {tail : List Expr} (h : k.Lists (pre ++ b :: (c.flatten ++ e :: tail)))
    (hnested : c.Nested (pre ++ b :: (c.flatten ++ e :: tail))) :
    k.body b.id (some e.id) = (c.direct.map Expr.id, none) := by
  have hsteps : c.items ≤ k.order.length + 1 := by
    have hle := length_steps_le c
    rw [h.order]
    simp only [length_map, length_append, length_cons]
    omega
  rw [Kernel.body, h.behind]
  exact h.bodyOn hnested (show _ = (pre ++ [b]) ++ c.flatten ++ e :: tail by simp) hsteps

end Lists

end Kernel

end KernelLoops
