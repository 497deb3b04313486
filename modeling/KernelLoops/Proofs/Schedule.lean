import Mathlib.Data.List.Perm.Basic
import Mathlib.Data.List.Sigma
import KernelLoops.Proofs.ProperNesting

set_option autoImplicit false

/-! # Schedules

A schedule is a list of expressions together with a table of loops that fits it: the expressions of
a loop stand next to each other, data is made before it is used, and the table knows what enters and
leaves each loop. Parts of a schedule that do not depend on each other can trade places, as long as
no loop falls apart. So one of two loops can be brought next to the other, when what lies between
them allows it. -/

namespace KernelLoops

open List

variable {x y : Expr} {info : LoopInfo} {a b id : LoopId} {i j : Nat}

/-! ## Contiguous items -/

section Contiguous

variable {α β : Type} {p : α → Bool} {xs ys zs : List α}

/-- An item of two lists in a row lies in one of them. -/
theorem append_eq_split {left right : List α} {y : α} (h : xs ++ zs = left ++ y :: right) :
    (∃ rest, xs = left ++ y :: rest ∧ right = rest ++ zs) ∨ ∃ rest, left = xs ++ rest ∧ zs = rest ++ y :: right := by
  rcases append_eq_append_iff.1 h with ⟨rest, hleft, hzs⟩ | ⟨rest, hxs, hright⟩
  · exact .inr ⟨rest, hleft, hzs⟩
  · cases rest with
    | nil => exact .inr ⟨[], by simpa using hxs.symm, by simpa using hright.symm⟩
    | cons z rest =>
      obtain ⟨rfl, rfl⟩ := List.cons.inj hright
      exact .inl ⟨rest, hxs, rfl⟩

/-- Items that never lie on both sides of one without the property stand next to each other. -/
theorem contiguous_of_divide
    (h : ∀ left y right, xs = left ++ y :: right → p y = false →
      (∀ a ∈ left, p a = false) ∨ ∀ a ∈ right, p a = false) : Contiguous p xs := by
  intro z hz
  generalize hrest : (xs.dropWhile fun a => !p a).dropWhile p = rest at hz
  cases rest with
  | nil => cases hz
  | cons d rest =>
    have hd : p d = false := by
      have hhead := head?_dropWhile_not p (xs.dropWhile fun a => !p a)
      rw [hrest] at hhead
      simpa using hhead
    have hxs : xs = xs.takeWhile (fun a => !p a) ++ (xs.dropWhile fun a => !p a).takeWhile p ++ d :: rest := by
      rw [← hrest, append_assoc, takeWhile_append_dropWhile, takeWhile_append_dropWhile]
    rcases h _ d rest hxs hd with hleft | hright
    · -- The run of items with the property starts right behind those without it, so it is not empty.
      exfalso
      cases hrun : xs.dropWhile fun a => !p a with
      | nil => simp [hrun] at hrest
      | cons r run =>
        have hr : p r = true := by
          have hhead := head?_dropWhile_not (fun a => !p a) xs
          rw [hrun] at hhead
          simpa using hhead
        have hmem : r ∈ (xs.dropWhile fun a => !p a).takeWhile p := by simp [hrun, hr]
        rw [hleft r (mem_append_right _ hmem)] at hr
        cases hr
    · rcases mem_cons.1 hz with rfl | hz
      · exact hd
      · exact hright z hz

theorem contiguous_of_forall_not (h : ∀ a ∈ xs, p a = false) : Contiguous p xs :=
  contiguous_of_divide fun _ _ _ hxs _ => .inl fun a ha => h a (hxs ▸ mem_append_left _ ha)

theorem contiguous_of_forall (h : ∀ a ∈ xs, p a = true) : Contiguous p xs := by
  refine contiguous_of_divide fun left y right hxs hy => ?_
  rw [h y (hxs ▸ by simp)] at hy
  cases hy

namespace Contiguous

/-- Items without the property may stand before those that have it. -/
theorem append_left (h : Contiguous p ys) (hxs : ∀ a ∈ xs, p a = false) :
    Contiguous p (xs ++ ys) := by
  refine contiguous_of_divide fun left y right heq hy => ?_
  rcases append_eq_split heq with ⟨rest, rfl, -⟩ | ⟨rest, rfl, hys⟩
  · exact .inl fun a ha => hxs a (mem_append_left _ ha)
  · refine (h.divide hys hy).imp (fun hrest a ha => ?_) id
    exact (mem_append.1 ha).elim (hxs a) (hrest a)

/-- Items without the property may stand behind those that have it. -/
theorem append_right (h : Contiguous p xs) (hys : ∀ a ∈ ys, p a = false) :
    Contiguous p (xs ++ ys) := by
  refine contiguous_of_divide fun left y right heq hy => ?_
  rcases append_eq_split heq with ⟨rest, hxs, rfl⟩ | ⟨rest, -, rfl⟩
  · refine (h.divide hxs hy).imp id fun hrest a ha => ?_
    exact (mem_append.1 ha).elim (hrest a) (hys a)
  · exact .inr fun a ha => hys a (by simp [ha])

section

variable (h : Contiguous p (xs ++ ys ++ zs))

include h

/-- A part of the list has its items next to each other too. -/
theorem part : Contiguous p ys := by
  refine contiguous_of_divide fun left y right heq hy => ?_
  have hdivide := h.divide (show xs ++ ys ++ zs = (xs ++ left) ++ y :: (right ++ zs) by simp [heq]) hy
  exact hdivide.imp (fun hl a ha => hl a (mem_append_right _ ha))
    fun hr a ha => hr a (mem_append_left _ ha)

/-- A part without the property has the items on one side only. -/
theorem apart (hne : ys ≠ []) (hys : ∀ a ∈ ys, p a = false) :
    (∀ a ∈ xs, p a = false) ∨ ∀ a ∈ zs, p a = false := by
  obtain ⟨y, rest, rfl⟩ := exists_cons_of_ne_nil hne
  have hdivide := h.divide (show xs ++ y :: rest ++ zs = xs ++ y :: (rest ++ zs) by simp) (hys y (by simp))
  exact hdivide.imp id fun hr a ha => hr a (mem_append_right _ ha)

/-- Everything between two items with the property has it. -/
theorem between (hxs : ∃ a ∈ xs, p a = true) (hzs : ∃ a ∈ zs, p a = true) :
    ∀ a ∈ ys, p a = true := by
  intro y hy
  by_contra hnot
  obtain ⟨left, right, rfl⟩ := append_of_mem hy
  obtain ⟨a, ha, hpa⟩ := hxs
  obtain ⟨b, hb, hpb⟩ := hzs
  have hdivide := h.divide
    (show xs ++ (left ++ y :: right) ++ zs = (xs ++ left) ++ y :: (right ++ zs) by simp) (by simpa using hnot)
  rcases hdivide with hl | hr
  · rw [hl a (mem_append_left _ ha)] at hpa
    cases hpa
  · rw [hr b (mem_append_right _ hb)] at hpb
    cases hpb

/-- A part that has the property throughout may be rearranged. -/
theorem replace (hne : ys ≠ []) (hys : ∀ a ∈ ys, p a = true)
    {ys' : List α} (hys' : ∀ a ∈ ys', p a = true) : Contiguous p (xs ++ ys' ++ zs) := by
  obtain ⟨y, hy⟩ := exists_mem_of_ne_nil ys hne
  have hpy := hys y hy
  refine contiguous_of_divide fun left b right heq hb => ?_
  rw [append_assoc] at heq
  -- The item without the property lies before or behind the part, and the part is on its other
  -- side.
  rcases append_eq_split heq with ⟨before, rfl, -⟩ | ⟨behind, -, heq⟩
  · have hdivide := h.divide (show left ++ b :: before ++ ys ++ zs = left ++ b :: (before ++ ys ++ zs) by simp) hb
    refine hdivide.imp id fun hright => ?_
    rw [hright y (by simp [hy])] at hpy
    cases hpy
  · rcases append_eq_split heq with ⟨inside, rfl, -⟩ | ⟨behind, -, rfl⟩
    · rw [hys' b (by simp)] at hb
      cases hb
    · have hdivide := h.divide (show xs ++ ys ++ (behind ++ b :: right) = (xs ++ ys ++ behind) ++ b :: right by simp) hb
      refine hdivide.imp (fun hleft => ?_) id
      rw [hleft y (by simp [hy])] at hpy
      cases hpy

end

/-- Two parts next to each other may trade places when one of them has all items, when both have the
    property throughout, or when neither has it at all. -/
theorem swap {pre post : List α} (h : Contiguous p (pre ++ xs ++ ys ++ post))
    (hcase : (∀ a ∈ xs ++ ys, p a = true) ∨ (∀ a ∈ pre ++ ys ++ post, p a = false) ∨
      (∀ a ∈ pre ++ xs ++ post, p a = false) ∨ ∀ a ∈ xs ++ ys, p a = false) :
    Contiguous p (pre ++ ys ++ xs ++ post) := by
  by_cases hne : xs ++ ys = []
  · obtain ⟨rfl, rfl⟩ := append_eq_nil_iff.1 hne
    exact h
  have hmiddle : Contiguous p (pre ++ (xs ++ ys) ++ post) := by simpa using h
  rcases hcase with hall | hxs | hys | hnone
  · have hflip : ∀ a ∈ ys ++ xs, p a = true := fun a ha => hall a (by simpa [or_comm] using ha)
    simpa using hmiddle.replace hne hall hflip
  · have hrun : Contiguous p xs := (show Contiguous p (pre ++ xs ++ (ys ++ post)) by simpa using h).part
    refine (hrun.append_left fun a ha => hxs a ?_).append_right fun a ha => hxs a ?_
    · exact mem_append_left _ ha
    · exact mem_append_right _ ha
  · have hrun : Contiguous p ys := (show Contiguous p ((pre ++ xs) ++ ys ++ post) by simpa using h).part
    rw [append_assoc]
    refine (hrun.append_left fun a ha => hys a ?_).append_right fun a ha => hys a ?_
    · simp [ha]
    · rw [append_assoc]
      exact mem_append_right _ ha
  · have hflip : ∀ a ∈ ys ++ xs, p a = false := fun a ha => hnone a (by simpa [or_comm] using ha)
    rw [append_assoc pre]
    rcases hmiddle.apart hne hnone with hpre | hpost
    · have hrun : Contiguous p post :=
        (show Contiguous p ((pre ++ (xs ++ ys)) ++ post ++ []) by simpa using hmiddle).part
      rw [append_assoc]
      exact (hrun.append_left hflip).append_left hpre
    · have hrun : Contiguous p pre :=
        (show Contiguous p ([] ++ pre ++ ((xs ++ ys) ++ post)) by simpa using hmiddle).part
      exact (hrun.append_right hflip).append_right hpost

theorem congr {q : α → Bool} (h : Contiguous p xs) (hq : ∀ a ∈ xs, q a = p a) : Contiguous q xs := by
  refine contiguous_of_divide fun left y right heq hy => ?_
  have hdivide := h.divide heq (by rw [← hq y (by simp [heq]), hy])
  refine hdivide.imp (fun hleft a ha => ?_) fun hright a ha => ?_
  · rw [hq a (by simp [heq, ha]), hleft a ha]
  · rw [hq a (by simp [heq, ha]), hright a ha]

theorem map {f : α → β} {q : β → Bool} (h : Contiguous (q ∘ f) xs) : Contiguous q (xs.map f) := by
  refine contiguous_of_divide fun left y right heq hy => ?_
  obtain ⟨as, bs, rfl, rfl, hbs⟩ := map_eq_append_iff.1 heq
  obtain ⟨b, bs, rfl, rfl, rfl⟩ := map_eq_cons_iff.1 hbs
  exact (h.divide rfl hy).imp (fun has => by simpa using has) fun hbs => by simpa using hbs

end Contiguous

end Contiguous

/-! ## What enters and leaves a loop -/

namespace Expr

/-- The expression makes the tensor. -/
def makes (x : Expr) (t : TensorId) : Bool := x.outputs.any (·.id = t)

/-- The expression uses the tensor. -/
def uses (x : Expr) (t : TensorId) : Bool := x.inputs.any (·.id = t)

/-- The first expression makes what the second uses, and so has to run before it. Kernel inputs and
    constants are there from the start, and kernel outputs are taken at the end. -/
def Precedes (p c : Expr) : Prop :=
  p.kind ≠ .parameter ∧ p.kind ≠ .constant ∧ c.kind ≠ .result ∧ ∃ t ∈ p.outputs, c.uses t.id = true

instance (p c : Expr) : Decidable (p.Precedes c) :=
  inferInstanceAs (Decidable (p.kind ≠ .parameter ∧ p.kind ≠ .constant ∧ c.kind ≠ .result ∧
    ∃ t ∈ p.outputs, c.uses t.id = true))

end Expr

/-- The inputs of a loop that are not made in it. -/
def entryPorts (xs : List Expr) (id : LoopId) : List Port :=
  (xs.filter (·.inLoop id)).flatMap fun x => x.inputs.zipIdx.filterMap fun (t, index) =>
    if xs.any fun y => y.inLoop id && y.makes t.id then none else some { expr := x.id, side := .input, index }

/-- The outputs of a loop. -/
def outputPorts (xs : List Expr) (id : LoopId) : List Port :=
  (xs.filter (·.inLoop id)).flatMap fun x => x.outputs.zipIdx.map fun (_, index) =>
    { expr := x.id, side := .output, index }

/-- The outputs of a loop that are used outside it. -/
def exitPorts (xs : List Expr) (id : LoopId) : List Port :=
  (xs.filter (·.inLoop id)).flatMap fun x => x.outputs.zipIdx.filterMap fun (t, index) =>
    if xs.any fun y => !y.inLoop id && y.uses t.id then some { expr := x.id, side := .output, index } else none

section Ports

variable {xs ys : List Expr} {p : Port}

theorem mem_entryPorts : p ∈ entryPorts xs id ↔ p.side = .input ∧ ∃ x ∈ xs, x.inLoop id = true ∧
    x.id = p.expr ∧
    ∃ t, x.inputs[p.index]? = some t ∧ ∀ y ∈ xs, y.inLoop id = true → y.makes t.id = false := by
  obtain ⟨e, side, index⟩ := p
  simp only [entryPorts, mem_flatMap, mem_filter, mem_filterMap, Prod.exists,
    mem_zipIdx_iff_getElem?, Option.ite_none_left_eq_some, Option.some.injEq, Port.mk.injEq,
    Bool.not_eq_true, any_eq_false, Bool.and_eq_false_imp]
  constructor
  · rintro ⟨x, ⟨hx, hin⟩, t, i, ht, hmade, rfl, rfl, rfl⟩
    exact ⟨rfl, x, hx, hin, rfl, t, ht, hmade⟩
  · rintro ⟨rfl, x, hx, hin, rfl, t, ht, hmade⟩
    exact ⟨x, ⟨hx, hin⟩, t, index, ht, hmade, rfl, rfl, rfl⟩

theorem mem_outputPorts : p ∈ outputPorts xs id ↔ p.side = .output ∧
    ∃ x ∈ xs, x.inLoop id = true ∧ x.id = p.expr ∧ ∃ t, x.outputs[p.index]? = some t := by
  obtain ⟨e, side, index⟩ := p
  simp only [outputPorts, mem_flatMap, mem_filter, mem_map, Prod.exists,
    mem_zipIdx_iff_getElem?, Port.mk.injEq]
  constructor
  · rintro ⟨x, ⟨hx, hin⟩, t, i, ht, rfl, rfl, rfl⟩
    exact ⟨rfl, x, hx, hin, rfl, t, ht⟩
  · rintro ⟨rfl, x, hx, hin, rfl, t, ht⟩
    exact ⟨x, ⟨hx, hin⟩, t, index, ht, rfl, rfl, rfl⟩

theorem mem_exitPorts : p ∈ exitPorts xs id ↔ p.side = .output ∧ ∃ x ∈ xs, x.inLoop id = true ∧
    x.id = p.expr ∧
    ∃ t, x.outputs[p.index]? = some t ∧ ∃ y ∈ xs, y.inLoop id = false ∧ y.uses t.id = true := by
  obtain ⟨e, side, index⟩ := p
  simp only [exitPorts, mem_flatMap, mem_filter, mem_filterMap, Prod.exists,
    mem_zipIdx_iff_getElem?, Option.ite_none_right_eq_some, Option.some.injEq, Port.mk.injEq,
    any_eq_true, Bool.and_eq_true, Bool.not_eq_true']
  constructor
  · rintro ⟨x, ⟨hx, hin⟩, t, i, ht, hused, rfl, rfl, rfl⟩
    exact ⟨rfl, x, hx, hin, rfl, t, ht, hused⟩
  · rintro ⟨rfl, x, hx, hin, rfl, t, ht, hused⟩
    exact ⟨x, ⟨hx, hin⟩, t, index, ht, hused, rfl, rfl, rfl⟩

/-- What enters a loop does not depend on the order. -/
theorem entryPorts_perm (h : xs.Perm ys) : (entryPorts xs id).Perm (entryPorts ys id) := by
  have hany (t : Tensor) : (xs.any fun y => y.inLoop id && y.makes t.id) =
    ys.any fun y => y.inLoop id && y.makes t.id :=
    h.any_eq
  unfold entryPorts
  simp only [hany]
  exact (h.filter _).flatMap_right _

/-- Each entry is listed once. -/
theorem nodup_entryPorts (h : (xs.map Expr.id).Nodup) : (entryPorts xs id).Nodup := by
  refine nodup_flatMap.2 ⟨fun x _ => ?_, ?_⟩
  · have hindex : x.inputs.zipIdx.Pairwise fun a b => a.2 ≠ b.2 := pairwise_map.1 (nodup_zipIdx_map_snd _)
    refine hindex.filterMap _ fun a b hab p hp q hq hpq => hab ?_
    have hp := Option.some.inj (Option.ite_none_left_eq_some.1 hp).2
    have hq := Option.some.inj (Option.ite_none_left_eq_some.1 hq).2
    exact congrArg Port.index (hp.trans (hpq.trans hq.symm))
  · refine ((pairwise_map.1 h).filter _).imp fun hxy p hp hq => hxy ?_
    obtain ⟨a, -, hp⟩ := mem_filterMap.1 hp
    obtain ⟨b, -, hq⟩ := mem_filterMap.1 hq
    have hp := Option.some.inj (Option.ite_none_left_eq_some.1 hp).2
    have hq := Option.some.inj (Option.ite_none_left_eq_some.1 hq).2
    exact congrArg Port.expr (hp.trans hq.symm)

end Ports

/-- The boundary of a loop is exact: its entries are the inputs that are not made in it, and its
    exits are outputs of its own, among them all that are used outside it. -/
structure LoopInfo.Bounds (xs : List Expr) (id : LoopId) (info : LoopInfo) : Prop where
  entries : info.entries.Perm (entryPorts xs id)
  nonempty : info.exits ≠ []
  own : ∀ p ∈ info.exits, p ∈ outputPorts xs id
  used : ∀ p ∈ exitPorts xs id, p ∈ info.exits

/-- A list of expressions with as many levels each, and a table of loops that fits it. -/
structure Scheduled (depth : Nat) (loops : LoopTable) (xs : List Expr) : Prop where
  ids : (xs.map Expr.id).Nodup
  unmarked : ∀ x ∈ xs, x.kind.isMarker = false
  levels : ∀ x ∈ xs, x.loopIds.length = depth
  interface : ∀ x ∈ xs, x.kind.isInterface = true → LoopId.loops x.loopIds = []
  registered : ∀ x ∈ xs, ∀ id ∈ LoopId.loops x.loopIds, (loops.get? id).isSome
  together : ∀ x ∈ xs, ∀ id ∈ LoopId.loops x.loopIds, Contiguous (·.inLoop id) xs
  once : (xs.flatMap fun x => x.outputs.map Tensor.id).Nodup
  ordered : xs.Pairwise fun x y => ¬y.Precedes x
  acyclic : ∀ x ∈ xs, ¬x.Precedes x
  bounds : ∀ l ∈ loops.entries, l.2.Bounds xs l.1

/-- Where the two expressions share a loop, they have it at the same level and share everything
    outside it. -/
def Expr.Agrees (x y : Expr) : Prop :=
  ∀ i < x.loopIds.length, ∀ j < y.loopIds.length, ∀ id ∈ x.loopIds[i]?, y.loopIds[j]? = some id →
    id.isSentinel = false → i = j ∧ x.loopIds.take i = y.loopIds.take j

/-- Loops with the same increment that the two expressions have at one level lie in the same
    loops. -/
def Expr.Aligned (loops : LoopTable) (x y : Expr) : Prop :=
  ∀ i < x.loopIds.length, ∀ a ∈ x.loopIds[i]?, ∀ b ∈ y.loopIds[i]?, ∀ la ∈ loops.get? a, ∀ lb ∈ loops.get? b,
    la.increment = lb.increment → x.loopIds.take i = y.loopIds.take i

/-- All expressions agree on the loops they share. -/
def LoopsAgree (xs : List Expr) : Prop := ∀ x ∈ xs, ∀ y ∈ xs, x.Agrees y

/-- Data that goes from one loop to another with the same increment, at one level, stays within the
    loops around them. -/
def Uncrossed (loops : LoopTable) (xs : List Expr) : Prop :=
  ∀ x ∈ xs, ∀ y ∈ xs, x.Precedes y → x.Aligned loops y

instance (x y : Expr) : Decidable (x.Agrees y) :=
  inferInstanceAs (Decidable (∀ i < x.loopIds.length, ∀ j < y.loopIds.length, ∀ id ∈ x.loopIds[i]?,
    y.loopIds[j]? = some id → id.isSentinel = false → i = j ∧ x.loopIds.take i = y.loopIds.take j))

instance (loops : LoopTable) (x y : Expr) : Decidable (x.Aligned loops y) :=
  inferInstanceAs (Decidable (∀ i < x.loopIds.length, ∀ a ∈ x.loopIds[i]?, ∀ b ∈ y.loopIds[i]?, ∀ la ∈ loops.get? a,
    ∀ lb ∈ loops.get? b, la.increment = lb.increment → x.loopIds.take i = y.loopIds.take i))

instance (xs : List Expr) (id : LoopId) (info : LoopInfo) : Decidable (info.Bounds xs id) :=
  decidable_of_iff (info.entries.Perm (entryPorts xs id) ∧ info.exits ≠ [] ∧ (∀ p ∈ info.exits, p ∈ outputPorts xs id) ∧
      ∀ p ∈ exitPorts xs id, p ∈ info.exits)
    ⟨fun ⟨h1, h2, h3, h4⟩ => ⟨h1, h2, h3, h4⟩, fun ⟨h1, h2, h3, h4⟩ => ⟨h1, h2, h3, h4⟩⟩

instance (depth : Nat) (loops : LoopTable) (xs : List Expr) : Decidable (Scheduled depth loops xs) :=
  decidable_of_iff ((xs.map Expr.id).Nodup ∧ (∀ x ∈ xs, x.kind.isMarker = false) ∧
    (∀ x ∈ xs, x.loopIds.length = depth) ∧
      (∀ x ∈ xs, x.kind.isInterface = true → LoopId.loops x.loopIds = []) ∧
      (∀ x ∈ xs, ∀ id ∈ LoopId.loops x.loopIds, (loops.get? id).isSome) ∧
      (∀ x ∈ xs, ∀ id ∈ LoopId.loops x.loopIds, Contiguous (·.inLoop id) xs) ∧
      (xs.flatMap fun x => x.outputs.map Tensor.id).Nodup ∧ xs.Pairwise (fun x y => ¬y.Precedes x) ∧
      (∀ x ∈ xs, ¬x.Precedes x) ∧ ∀ l ∈ loops.entries, l.2.Bounds xs l.1)
    ⟨fun ⟨h1, h2, h3, h4, h5, h6, h7, h8, h9, h⟩ => ⟨h1, h2, h3, h4, h5, h6, h7, h8, h9, h⟩,
      fun ⟨h1, h2, h3, h4, h5, h6, h7, h8, h9, h⟩ => ⟨h1, h2, h3, h4, h5, h6, h7, h8, h9, h⟩⟩

instance (xs : List Expr) : Decidable (LoopsAgree xs) :=
  inferInstanceAs (Decidable (∀ x ∈ xs, ∀ y ∈ xs, x.Agrees y))

instance (loops : LoopTable) (xs : List Expr) : Decidable (Uncrossed loops xs) :=
  inferInstanceAs (Decidable (∀ x ∈ xs, ∀ y ∈ xs, x.Precedes y → x.Aligned loops y))

/-! ## Rearranging -/

theorem LoopInfo.Bounds.perm {xs ys : List Expr} (h : info.Bounds xs id) (hperm : xs.Perm ys) :
    info.Bounds ys id where
  entries := h.entries.trans (entryPorts_perm hperm)
  nonempty := h.nonempty
  own p hp := by simpa only [mem_outputPorts, hperm.mem_iff] using h.own p hp
  used p hp := h.used p (by simpa only [mem_exitPorts, hperm.mem_iff] using hp)

/-- The boundary of a loop lies on its expressions. -/
theorem LoopInfo.Bounds.exists_mem {xs : List Expr} (h : info.Bounds xs id) {p : Port}
    (hp : p ∈ info.ports) :
    ∃ x ∈ xs, x.inLoop id = true ∧ x.id = p.expr := by
  rcases mem_append.1 hp with hp | hp
  · obtain ⟨-, x, hx, hin, hid, -⟩ := mem_entryPorts.1 (h.entries.mem_iff.1 hp)
    exact ⟨x, hx, hin, hid⟩
  · obtain ⟨-, x, hx, hin, hid, -⟩ := mem_outputPorts.1 (h.own p hp)
    exact ⟨x, hx, hin, hid⟩

theorem LoopsAgree.perm {xs ys : List Expr} (h : LoopsAgree xs) (hperm : xs.Perm ys) :
    LoopsAgree ys :=
  fun x hx y hy => h x (hperm.mem_iff.2 hx) y (hperm.mem_iff.2 hy)

theorem Uncrossed.perm {loops : LoopTable} {xs ys : List Expr} (h : Uncrossed loops xs)
    (hperm : xs.Perm ys) :
    Uncrossed loops ys :=
  fun x hx y hy => h x (hperm.mem_iff.2 hx) y (hperm.mem_iff.2 hy)

section Rearranging

variable {depth level : Nat} {loops : LoopTable} {xs ys pre mid post F S : List Expr} {f s : LoopId}

/-- Another order in which loops stay together and data is made before it is used. -/
theorem Scheduled.rearrange (h : Scheduled depth loops xs) (hperm : xs.Perm ys)
    (together : ∀ x ∈ ys, ∀ id ∈ LoopId.loops x.loopIds, Contiguous (·.inLoop id) ys)
    (ordered : ys.Pairwise fun x y => ¬y.Precedes x) : Scheduled depth loops ys where
  ids := (hperm.map _).nodup_iff.1 h.ids
  unmarked x hx := h.unmarked x (hperm.mem_iff.2 hx)
  levels x hx := h.levels x (hperm.mem_iff.2 hx)
  interface x hx := h.interface x (hperm.mem_iff.2 hx)
  registered x hx := h.registered x (hperm.mem_iff.2 hx)
  together := together
  once := (hperm.flatMap_right _).nodup_iff.1 h.once
  ordered := ordered
  acyclic x hx := h.acyclic x (hperm.mem_iff.2 hx)
  bounds l hl := (h.bounds l hl).perm hperm

/-- Parts next to each other trade places when neither needs the other, as long as no loop falls
    apart. -/
theorem Scheduled.swap {as bs : List Expr} (h : Scheduled depth loops (pre ++ as ++ bs ++ post))
    (hloops : ∀ id, id.isSentinel = false → Contiguous (·.inLoop id) (pre ++ as ++ bs ++ post) →
      (∀ x ∈ as ++ bs, x.inLoop id = true) ∨ (∀ x ∈ pre ++ bs ++ post, x.inLoop id = false) ∨
        (∀ x ∈ pre ++ as ++ post, x.inLoop id = false) ∨ ∀ x ∈ as ++ bs, x.inLoop id = false)
    (hfree : ∀ a ∈ as, ∀ b ∈ bs, ¬a.Precedes b) : Scheduled depth loops (pre ++ bs ++ as ++ post) := by
  have hperm : (pre ++ as ++ bs ++ post).Perm (pre ++ bs ++ as ++ post) := by
    simp only [append_assoc]
    exact (perm_append_comm_assoc as bs post).append_left pre
  refine h.rearrange hperm (fun x hx id hid => ?_) ?_
  · have hc := h.together x (hperm.mem_iff.2 hx) id hid
    exact hc.swap (hloops id (LoopId.mem_loops.1 hid).2 hc)
  · obtain ⟨hinit, hpost, hto⟩ := pairwise_append.1 h.ordered
    obtain ⟨hinit, hbs, htobs⟩ := pairwise_append.1 hinit
    obtain ⟨hpre, has, htoas⟩ := pairwise_append.1 hinit
    refine pairwise_append.2 ⟨pairwise_append.2 ⟨pairwise_append.2 ⟨hpre, hbs, ?_⟩, has, ?_⟩, hpost, ?_⟩
    · exact fun x hx b hb => htobs x (mem_append_left _ hx) b hb
    · intro x hx a ha
      rcases mem_append.1 hx with hx | hx
      · exact htoas x hx a ha
      · exact hfree a ha x hx
    · intro x hx y hy
      refine hto x ?_ y hy
      simp only [mem_append] at hx ⊢
      tauto

/-- Two loops of one level, the first before the second, in the same loops further out. -/
structure Facing (level : Nat) (f s : LoopId) (pre F mid S post : List Expr) : Prop where
  real_first : f.isSentinel = false
  real_second : s.isSentinel = false
  first_ne : F ≠ []
  second_ne : S ≠ []
  first : ∀ x ∈ F, x.loopIds[level]? = some f
  second : ∀ x ∈ S, x.loopIds[level]? = some s
  only_first : ∀ x ∈ pre ++ mid ++ S ++ post, x.inLoop f = false
  only_second : ∀ x ∈ pre ++ F ++ mid ++ post, x.inLoop s = false
  outer : ∀ x ∈ F, ∀ y ∈ S, x.loopIds.take level = y.loopIds.take level

theorem inLoop_iff : x.inLoop id = true ↔ ∃ i : Nat, x.loopIds[i]? = some id := by
  rw [Expr.inLoop, contains_iff_mem, mem_iff_getElem?]

/-- Outside a loop no level holds it. -/
theorem ne_of_not_inLoop (h : x.inLoop id = false) (hi : x.loopIds[i]? = some a) : a ≠ id := by
  rintro rfl
  exact Bool.eq_false_iff.1 h (inLoop_iff.2 ⟨i, hi⟩)

namespace Scheduled

variable {id' : LoopId}

theorem isSome_of_inLoop (h : Scheduled depth loops xs) (hx : x ∈ xs) (hin : x.inLoop id = true)
    (hreal : id.isSentinel = false) : (loops.get? id).isSome :=
  h.registered x hx id (LoopId.mem_loops.2 ⟨contains_iff_mem.1 hin, hreal⟩)

theorem not_isInterface (h : Scheduled depth loops xs) (hx : x ∈ xs) (hin : x.inLoop id = true)
    (hreal : id.isSentinel = false) : x.kind.isInterface = false := by
  refine Bool.eq_false_iff.2 fun hio => ?_
  have hmem : id ∈ LoopId.loops x.loopIds := LoopId.mem_loops.2 ⟨contains_iff_mem.1 hin, hreal⟩
  rw [h.interface x hx hio] at hmem
  cases hmem

/-- Data between expressions in loops sets their order. -/
theorem precedes (h : Scheduled depth loops xs) (hx : x ∈ xs) (hy : y ∈ xs)
    (hxin : x.inLoop id = true)
    (hyin : y.inLoop id' = true) (hreal : id.isSentinel = false) (hreal' : id'.isSentinel = false) {t : TensorId}
    (hmakes : x.makes t = true) (huses : y.uses t = true) : x.Precedes y := by
  have hxkind := h.not_isInterface hx hxin hreal
  have hykind := h.not_isInterface hy hyin hreal'
  obtain ⟨u, hu, hut⟩ := any_eq_true.1 hmakes
  refine ⟨?_, ?_, ?_, u, hu, by rwa [of_decide_eq_true hut]⟩
  · rintro hkind
    simp [hkind, OpKind.isInterface] at hxkind
  · rintro hkind
    simp [hkind, OpKind.isInterface] at hxkind
  · rintro hkind
    simp [hkind, OpKind.isInterface] at hykind

end Scheduled

theorem getElem?_eq_of_take_eq {α : Type} {as bs : List α} {n : Nat} (hi : i < n)
    (h : as.take n = bs.take n) :
    as[i]? = bs[i]? := by
  rw [← getElem?_take_of_lt hi, h, getElem?_take_of_lt hi]

theorem LoopsAgree.agree (h : LoopsAgree xs) (hx : x ∈ xs) (hy : y ∈ xs)
    (hi : x.loopIds[i]? = some id)
    (hj : y.loopIds[j]? = some id) (hreal : id.isSentinel = false) :
    i = j ∧ x.loopIds.take i = y.loopIds.take j :=
  h x hx y hy i (List.getElem?_eq_some_iff.1 hi).1 j (List.getElem?_eq_some_iff.1 hj).1 id hi hj hreal

/-- What lies in an inner loop lies in the loops around it. -/
theorem LoopsAgree.inside (h : LoopsAgree xs) (hx : x ∈ xs) (hy : y ∈ xs)
    (ha : x.loopIds[i]? = some a)
    (hb : x.loopIds[j]? = some b) (hij : i ≤ j) (hreal : b.isSentinel = false) (hyb : y.inLoop b = true) :
    y.loopIds[i]? = some a := by
  obtain ⟨j', hj'⟩ := inLoop_iff.1 hyb
  obtain ⟨rfl, htake⟩ := h.agree hx hy hb hj' hreal
  rcases Nat.eq_or_lt_of_le hij with rfl | hlt
  · rw [hj', ← ha, hb]
  · rw [← ha, getElem?_eq_of_take_eq hlt htake]

/-- What lies outside a loop lies outside the loops in it. -/
theorem LoopsAgree.outside (h : LoopsAgree xs) (hx : x ∈ xs) (hy : y ∈ xs)
    (ha : x.loopIds[i]? = some a)
    (hb : x.loopIds[j]? = some b) (hij : i ≤ j) (hreal : b.isSentinel = false) (hya : y.inLoop a = false) :
    y.inLoop b = false := by
  refine Bool.eq_false_iff.2 fun hyb => Bool.eq_false_iff.1 hya ?_
  exact inLoop_iff.2 ⟨i, h.inside hx hy ha hb hij hreal hyb⟩

namespace Facing

variable (hw : Facing level f s pre F mid S post)

include hw

theorem mem_first (hx : x ∈ pre ++ F ++ mid ++ S ++ post) : x.inLoop f = true ↔ x ∈ F := by
  constructor
  · intro hin
    by_contra hnot
    rw [hw.only_first x (by simp only [mem_append] at hx ⊢; tauto)] at hin
    cases hin
  · intro hF
    exact inLoop_iff.2 ⟨level, hw.first x hF⟩

theorem mem_second (hx : x ∈ pre ++ F ++ mid ++ S ++ post) : x.inLoop s = true ↔ x ∈ S := by
  constructor
  · intro hin
    by_contra hnot
    rw [hw.only_second x (by simp only [mem_append] at hx ⊢; tauto)] at hin
    cases hin
  · intro hS
    exact inLoop_iff.2 ⟨level, hw.second x hS⟩

/-- The first loop brought down to the second. -/
theorem lowered : Facing level f s (pre ++ mid) F [] S post where
  __ := hw
  only_first x hx := hw.only_first x (by simpa using hx)
  only_second x hx := hw.only_second x (by simp only [mem_append, not_mem_nil] at hx ⊢; tauto)

/-- The second loop brought up to the first. -/
theorem lifted : Facing level f s pre F [] S (mid ++ post) where
  __ := hw
  only_first x hx := hw.only_first x (by simp only [mem_append, not_mem_nil] at hx ⊢; tauto)
  only_second x hx := hw.only_second x (by simpa using hx)

/-- Where the expressions of a loop are in view of two loops that face each other: it is around
    both, it lies within one of the three parts, or it is outside them. -/
theorem cases (hn : LoopsAgree (pre ++ F ++ mid ++ S ++ post))
    (hreal : id.isSentinel = false) (hc : Contiguous (·.inLoop id) (pre ++ F ++ mid ++ S ++ post)) :
    (∀ x ∈ F ++ mid ++ S, x.inLoop id = true) ∨ (∀ x ∈ pre ++ mid ++ S ++ post, x.inLoop id = false) ∨
      (∀ x ∈ pre ++ F ++ mid ++ post, x.inLoop id = false) ∨
      (∀ x ∈ pre ++ F ++ S ++ post, x.inLoop id = false) ∨ ∀ x ∈ F ++ mid ++ S, x.inLoop id = false := by
  have hmem {x : Expr} : x ∈ pre ++ F ++ mid ++ S ++ post ↔ x ∈ pre ∨ x ∈ F ∨ x ∈ mid ∨ x ∈ S ∨ x ∈ post := by
    simp
  by_cases hF : ∃ x ∈ F, x.inLoop id = true
  · obtain ⟨x, hx, hin⟩ := hF
    have hxs := hmem.2 (.inr (.inl hx))
    obtain ⟨j, hj⟩ := inLoop_iff.1 hin
    rcases Nat.lt_or_ge j level with hlt | hge
    · -- The loop is further out than the two, so it is around both and everything between them.
      have hallF : ∀ y ∈ F, y.inLoop id = true := fun y hy => inLoop_iff.2 ⟨j, hn.inside hxs
        (hmem.2 (.inr (.inl hy))) hj (hw.first x hx) hlt.le hw.real_first (inLoop_iff.2 ⟨level, hw.first y hy⟩)⟩
      have hallS : ∀ y ∈ S, y.inLoop id = true := fun y hy => inLoop_iff.2 ⟨j, by
        rw [← hj, getElem?_eq_of_take_eq hlt (hw.outer x hx y hy)]⟩
      obtain ⟨z, hz⟩ := exists_mem_of_ne_nil S hw.second_ne
      have hallmid : ∀ y ∈ mid, y.inLoop id = true :=
        (show Contiguous _ ((pre ++ F) ++ mid ++ (S ++ post)) by simpa using hc).between
          ⟨x, mem_append_right _ hx, hin⟩ ⟨z, mem_append_left _ hz, hallS z hz⟩
      refine .inl fun y hy => ?_
      rcases mem_append.1 hy with hy | hy
      · exact (mem_append.1 hy).elim (hallF y) (hallmid y)
      · exact hallS y hy
    · refine .inr (.inl fun y hy => hn.outside hxs (hmem.2 ?_) (hw.first x hx) hj hge hreal (hw.only_first y hy))
      simp only [mem_append] at hy
      tauto
  by_cases hS : ∃ x ∈ S, x.inLoop id = true
  · obtain ⟨x, hx, hin⟩ := hS
    obtain ⟨j, hj⟩ := inLoop_iff.1 hin
    rcases Nat.lt_or_ge j level with hlt | hge
    · obtain ⟨y, hy⟩ := exists_mem_of_ne_nil F hw.first_ne
      refine absurd ⟨y, hy, inLoop_iff.2 ⟨j, ?_⟩⟩ hF
      rw [getElem?_eq_of_take_eq hlt (hw.outer y hy x hx), hj]
    · refine .inr (.inr (.inl fun y hy => hn.outside (hmem.2 (.inr (.inr (.inr (.inl hx))))) (hmem.2 ?_)
        (hw.second x hx) hj hge hreal (hw.only_second y hy)))
      simp only [mem_append] at hy
      tauto
  -- Neither of the two loops meets it, so each of them has it on one side only.
  have hnotF : ∀ y ∈ F, y.inLoop id = false := fun y hy => Bool.eq_false_iff.2 fun h => hF ⟨y, hy, h⟩
  have hnotS : ∀ y ∈ S, y.inLoop id = false := fun y hy => Bool.eq_false_iff.2 fun h => hS ⟨y, hy, h⟩
  have hleft := (show Contiguous _ (pre ++ F ++ (mid ++ S ++ post)) by simpa using hc).apart hw.first_ne hnotF
  have hright := hc.apart hw.second_ne hnotS
  simp only [mem_append] at hleft hright ⊢
  rcases hleft with hpre | hrest
  · rcases hright with hrest | hpost
    · refine .inr (.inr (.inr (.inr ?_)))
      rintro y ((hy | hy) | hy)
      exacts [hnotF y hy, hrest y (.inr hy), hnotS y hy]
    · refine .inr (.inr (.inr (.inl ?_)))
      rintro y (((hy | hy) | hy) | hy)
      exacts [hpre y hy, hnotF y hy, hnotS y hy, hpost y hy]
  · refine .inr (.inr (.inr (.inr ?_)))
    rintro y ((hy | hy) | hy)
    exacts [hnotF y hy, hrest y (.inl (.inl hy)), hnotS y hy]

end Facing

/-- Brings the first of two facing loops down to the second, when nothing between them needs it. -/
theorem Scheduled.lower (h : Scheduled depth loops (pre ++ F ++ mid ++ S ++ post))
    (hw : Facing level f s pre F mid S post) (hn : LoopsAgree (pre ++ F ++ mid ++ S ++ post))
    (hfree : ∀ x ∈ F, ∀ y ∈ mid, ¬x.Precedes y) : Scheduled depth loops (pre ++ mid ++ F ++ S ++ post) := by
  rw [append_assoc _ S post] at h ⊢
  refine h.swap (fun id hreal hc => ?_) hfree
  have hcases := hw.cases hn hreal (by simpa using hc)
  simp only [mem_append] at hcases ⊢
  rcases hcases with hall | hF | hS | hmid | hnone
  · exact .inl fun x hx => hall x (.inl hx)
  · exact .inr (.inl fun x hx => hF x (by tauto))
  · exact .inr (.inr (.inr fun x hx => hS x (by tauto)))
  · exact .inr (.inr (.inl fun x hx => hmid x (by tauto)))
  · exact .inr (.inr (.inr fun x hx => hnone x (.inl hx)))

/-- Brings the second of two facing loops up to the first, when it needs nothing between them. -/
theorem Scheduled.lift (h : Scheduled depth loops (pre ++ F ++ mid ++ S ++ post))
    (hw : Facing level f s pre F mid S post) (hn : LoopsAgree (pre ++ F ++ mid ++ S ++ post))
    (hfree : ∀ x ∈ mid, ∀ y ∈ S, ¬x.Precedes y) : Scheduled depth loops (pre ++ F ++ S ++ mid ++ post) := by
  refine h.swap (fun id hreal hc => ?_) hfree
  have hcases := hw.cases hn hreal hc
  simp only [mem_append] at hcases ⊢
  rcases hcases with hall | hF | hS | hmid | hnone
  · exact .inl fun x hx => hall x (by tauto)
  · exact .inr (.inr (.inr fun x hx => hF x (by tauto)))
  · exact .inr (.inr (.inl fun x hx => hS x (by tauto)))
  · exact .inr (.inl fun x hx => hmid x (by tauto))
  · exact .inr (.inr (.inr fun x hx => hnone x (by tauto)))

end Rearranging

end KernelLoops
