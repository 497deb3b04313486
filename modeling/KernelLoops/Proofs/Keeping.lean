import Mathlib.Data.List.Forall2
import Mathlib.Tactic.Common
import KernelLoops.Kernel.Edit

set_option autoImplicit false

/-! # What steps keep

A step on a state may fail, and what it changed before it failed stays changed. `Keeps P step` says
that the step never breaks `P`, whether it succeeds or not. There is one rule for each way to put
steps together, so a pass keeps what its smallest edits keep. -/

namespace KernelLoops

open List

variable {σ α β : Type}

/-- The state a step ends in, be it by success or by failure. -/
def endState : EStateM.Result Failure σ α → σ
  | .ok _ s => s
  | .error _ s => s

/-- The step does not break a property of the state, even where it fails. -/
def Keeps (P : σ → Prop) (step : EStateM Failure σ α) : Prop := ∀ s, P s → P (endState (step s))

namespace Keeps

variable {P : σ → Prop}

theorem pure (a : α) : Keeps P (Pure.pure a : EStateM Failure σ α) := fun _ hs => hs

theorem throw (f : Failure) : Keeps P (MonadExcept.throw f : EStateM Failure σ α) := fun _ hs => hs

theorem bind {x : EStateM Failure σ α} {f : α → EStateM Failure σ β} (hx : Keeps P x)
    (hf : ∀ a, Keeps P (f a)) : Keeps P (x >>= f) := by
  intro s hs
  have hxs := hx s hs
  show P (endState (EStateM.bind x f s))
  unfold EStateM.bind
  cases hr : x s with
  | ok a s' =>
    rw [hr] at hxs
    exact hf a s' hxs
  | error e s' =>
    rw [hr] at hxs
    exact hxs

/-- What follows a look at the state may use that the property holds of it. -/
theorem get_bind {f : σ → EStateM Failure σ β} (hf : ∀ s, P s → Keeps P (f s)) :
    Keeps P (get >>= f) := fun s hs => hf s hs s hs

theorem modify {f : σ → σ} (hf : ∀ s, P s → P (f s)) :
    Keeps P (MonadStateOf.modifyGet fun s => (PUnit.unit, f s) : EStateM Failure σ PUnit) :=
  fun s hs => hf s hs

theorem ite {c : Prop} [Decidable c] {x y : EStateM Failure σ α} (hx : Keeps P x) (hy : Keeps P y) :
    Keeps P (if c then x else y) := by
  split
  · exact hx
  · exact hy

theorem forM {f : α → EStateM Failure σ PUnit} (hf : ∀ a, Keeps P (f a)) (xs : List α) :
    Keeps P (xs.forM f) := by
  induction xs with
  | nil => exact pure _
  | cons x xs ih => exact bind (hf x) fun _ => ih

theorem foldlM {f : β → α → EStateM Failure σ β} (hf : ∀ b a, Keeps P (f b a)) (xs : List α)
    (b : β) :
    Keeps P (xs.foldlM f b) := by
  induction xs generalizing b with
  | nil => exact pure _
  | cons x xs ih => exact bind (hf b x) fun b' => ih b'

theorem mapM {f : α → EStateM Failure σ β} {xs : List α} (hf : ∀ a ∈ xs, Keeps P (f a)) :
    Keeps P (xs.mapM f) := by
  induction xs with
  | nil => exact pure _
  | cons x xs ih =>
    rw [mapM_cons]
    refine bind (hf x mem_cons_self) fun _ => bind (ih fun a ha => ?_) fun _ => pure _
    exact hf a (mem_cons_of_mem x ha)

end Keeps

/-! ## Running steps -/

/-- Two steps in a row. -/
theorem bind_run (x : EStateM Failure σ α) (f : α → EStateM Failure σ β) (s : σ) :
    (x >>= f) s = match x s with
      | .ok a s' => f a s'
      | .error e s' => .error e s' := by
  show EStateM.bind x f s = _
  unfold EStateM.bind
  cases x s <;> rfl

theorem bind_run_ok {x : EStateM Failure σ α} {f : α → EStateM Failure σ β} {s s' : σ} {a : α}
    (h : x s = .ok a s') : (x >>= f) s = f a s' := by
  rw [bind_run, h]

theorem bind_run_error {x : EStateM Failure σ α} {f : α → EStateM Failure σ β} {s s' : σ}
    {e : Failure}
    (h : x s = .error e s') : (x >>= f) s = .error e s' := by
  rw [bind_run, h]

/-- A look at the state hands it on. -/
theorem get_bind_run (f : σ → EStateM Failure σ β) (s : σ) : (get >>= f) s = f s s := rfl

theorem modify_bind_run (g : σ → σ) (f : PUnit → EStateM Failure σ β) (s : σ) :
    (modify g >>= f) s = f ⟨⟩ (g s) := rfl

/-- A successful run of two steps splits into two successful runs. -/
theorem of_bind_run_ok {x : EStateM Failure σ α} {f : α → EStateM Failure σ β} {s s' : σ} {b : β}
    (h : (x >>= f) s = .ok b s') : ∃ a t, x s = .ok a t ∧ f a t = .ok b s' := by
  rw [bind_run] at h
  cases hx : x s with
  | ok a t =>
    rw [hx] at h
    exact ⟨a, t, rfl, h⟩
  | error e t =>
    rw [hx] at h
    cases h

/-! ## Questions -/

/-- A step whose result can be computed succeeds. -/
theorem exists_of_run' {step : EStateM Failure σ α} {s : σ} {a : α} (h : step.run' s = some a) :
    ∃ s', step s = .ok a s' := by
  delta EStateM.run' EStateM.run at h
  split at h
  · next hok =>
      cases h
      exact ⟨_, hok⟩
  · cases h

theorem except_bind_ok {x : Except Failure α} {f : α → Except Failure β} {a : α} (h : x = .ok a) :
    (x >>= f) = f a := by
  rw [h]
  rfl

/-- An answer to two questions in a row takes an answer to each. -/
theorem of_except_bind_ok {x : Except Failure α} {f : α → Except Failure β} {b : β}
    (h : (x >>= f) = .ok b) : ∃ a, x = .ok a ∧ f a = .ok b := by
  cases x with
  | ok a => exact ⟨a, rfl, h⟩
  | error e => cases h

/-- What is fetched from a list is its member. -/
theorem fetch_eq_ok_iff {xs : List α} {n : Nat} {x : α} : fetch xs (n : Int) = .ok x ↔
    xs[n]? = some x := by
  show fetch xs (.ofNat n) = _ ↔ _
  cases hn : xs[n]? with
  | none => simp [fetch, hn]
  | some y => simp [fetch, hn]

/-- What is fetched at any place is the member there. -/
theorem of_fetch_ok {xs : List α} {i : Int} {x : α} (h : fetch xs i = .ok x) :
    ∃ n : Nat, i = n ∧ xs[n]? = some x := by
  cases i with
  | ofNat n => exact ⟨n, rfl, fetch_eq_ok_iff.1 h⟩
  | negSucc n => cases h

/-- Questions asked of each item of a list. -/
theorem forall₂_of_mapM_ok {f : α → Except Failure β} {xs : List α} {ys : List β}
    (h : xs.mapM f = .ok ys) : Forall₂ (fun x y => f x = .ok y) xs ys := by
  induction xs generalizing ys with
  | nil =>
    cases h
    exact .nil
  | cons a rest ih =>
    rw [mapM_cons] at h
    obtain ⟨y, hy, h⟩ := of_except_bind_ok h
    obtain ⟨ys', hys', h⟩ := of_except_bind_ok h
    cases h
    exact .cons hy (ih hys')

theorem mapM_eq_ok {f : α → Except Failure β} {xs : List α} {ys : List β}
    (h : Forall₂ (fun x y => f x = .ok y) xs ys) :
    xs.mapM f = .ok ys := by
  induction h with
  | nil => rfl
  | cons hfirst _ ih =>
    rw [mapM_cons, except_bind_ok hfirst, except_bind_ok ih]
    rfl

theorem of_mapM_ok {f : α → Except Failure β} {xs : List α} {ys : List β} (h : xs.mapM f = .ok ys)
    {x : α}
    (hx : x ∈ xs) : ∃ y, f x = .ok y := by
  obtain ⟨n, hn⟩ := mem_iff_getElem.1 hx
  obtain ⟨hlt, rfl⟩ := hn
  have hall := forall₂_of_mapM_ok h
  exact ⟨_, forall₂_iff_get.1 hall |>.2 n hlt (hall.length_eq ▸ hlt)⟩

theorem of_mem_mapM_ok {f : α → Except Failure β} {xs : List α} {ys : List β}
    (h : xs.mapM f = .ok ys) {y : β}
    (hy : y ∈ ys) : ∃ x ∈ xs, f x = .ok y := by
  have hall := forall₂_of_mapM_ok h
  clear h
  induction hall with
  | nil => cases hy
  | cons hfirst _ ih =>
    rcases mem_cons.1 hy with rfl | hy
    · exact ⟨_, mem_cons_self, hfirst⟩
    · obtain ⟨x, hx, hxy⟩ := ih hy
      exact ⟨x, mem_cons_of_mem _ hx, hxy⟩

/-! ## The smallest edits -/

namespace Edit

variable {P : Kernel → Prop}

theorem ask_run_ok {question : Kernel → Except Failure α} {k : Kernel} {a : α}
    (h : question k = .ok a) : ask question k = .ok a k := by
  rw [ask, h]

theorem ask_run_error {question : Kernel → Except Failure α} {k : Kernel} {f : Failure}
    (h : question k = .error f) : ask question k = .error f k := by
  rw [ask, h]

theorem of_ask_run_ok {question : Kernel → Except Failure α} {k k' : Kernel} {a : α}
    (h : ask question k = .ok a k') : question k = .ok a ∧ k' = k := by
  unfold ask at h
  split at h
  · next hq =>
      cases h
      exact ⟨hq, rfl⟩
  · cases h

/-- What follows a question runs on the kernel that was asked. -/
theorem of_ask_bind_run_ok {question : Kernel → Except Failure α} {f : α → Edit β} {k k' : Kernel}
    {b : β}
    (h : (ask question >>= f) k = .ok b k') : ∃ a, question k = .ok a ∧ f a k = .ok b k' := by
  obtain ⟨a, k1, hask, hrest⟩ := of_bind_run_ok h
  obtain ⟨hq, rfl⟩ := of_ask_run_ok hask
  exact ⟨a, hq, hrest⟩

/-- A new expression gets the next number. -/
theorem newExpr_run (kind : OpKind) (op : String) (inputs outputs : List Tensor) (depth : Amount)
    (k : Kernel) :
    newExpr kind op inputs outputs depth k = match storage 8 depth with
      | .ok levels =>
        let x : Expr :=
          { id := k.exprs.size, kind, op, inputs, outputs, loopIds := replicate levels LoopId.null }
        .ok k.exprs.size { k with exprs := k.exprs.push x }
      | .error f => .error f k := by
  unfold newExpr
  rw [bind_run]
  cases storage 8 depth <;> rfl

/-- Putting an expression into the sequence before a mark. -/
def place (e : ExprId) : Option ExprId → List ExprId → List ExprId
  | none, xs => xs ++ [e]
  | some mark, xs => insertAt e mark xs

/-- The kernel with an expression in its sequence and its links in the index. -/
def placed (e : ExprId) (mark : Option ExprId) (k : Kernel) : Kernel :=
  { k with
    order := place e mark k.order
    consumed := k.consumed ++ links e .input (k.expr e).inputs
    produced := k.produced ++ links e .output (k.expr e).outputs }

/-- An insertion happens as a whole or not at all. -/
theorem insertBefore_run (e : ExprId) (mark : Option ExprId) (k : Kernel) :
    insertBefore e mark k =
      if k.attached e then .error (.violation (.alreadyAttached e)) k
      else match mark with
        | none => .ok () (placed e none k)
        | some m =>
          if k.attached m then .ok () (placed e (some m) k)
          else .error (.violation (.notAttached m)) k := by
  unfold insertBefore
  rw [get_bind_run]
  by_cases he : k.attached e
  · rw [if_pos he, if_pos he]
    rfl
  · rw [if_neg he, if_neg he]
    cases mark with
    | none => rfl
    | some m =>
      show (link e (some m) >>= fun _ => register e) k = _
      rw [link, bind_run, bind_run]
      unfold requireAttached
      by_cases hm : k.attached m
      · simp only [if_pos hm]
        rfl
      · simp only [if_neg hm]

/-- A question changes nothing. -/
theorem keeps_ask (question : Kernel → Except Failure α) : Keeps P (ask question) := by
  intro k hk
  unfold ask
  split <;> exact hk

theorem keeps_requireAttached (e : ExprId) : Keeps P (requireAttached e) := by
  intro k hk
  unfold requireAttached
  split <;> exact hk

end Edit

end KernelLoops
