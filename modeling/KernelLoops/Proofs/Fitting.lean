import KernelLoops.Proofs.Amounts
import KernelLoops.Proofs.Joining
import KernelLoops.Proofs.Marking

set_option autoImplicit false

/-! # Which loops fit

Before the fusion pass takes in a loop it asks the kernel a few questions: where the loop is,
whether anything between the two loops is in the way, and what is left of the boundary between them.
On a kernel that lists a schedule all of them have an answer, and the answers mean what they
should. -/

namespace KernelLoops

open List

variable {e start : Expr} {xs : List Expr} {u : TensorId}

/-! ## Loops as runs -/

/-- The expressions of a loop, in a row, at one level. -/
structure Run (level : Nat) (id : LoopId) (pre run post : List Expr) : Prop where
  real : id.isSentinel = false
  ne : run ≠ []
  within : ∀ x ∈ run, x.loopIds[level]? = some id
  only : ∀ x ∈ pre ++ post, x.inLoop id = false

section Runs

variable {depth level : Nat} {loops : LoopTable} {pre run mid post F S : List Expr} {x y : Expr}
  {id f s : LoopId}

theorem Run.mem_iff (hr : Run level id pre run post) (hx : x ∈ pre ++ run ++ post) :
    x.inLoop id = true ↔ x ∈ run := by
  constructor
  · intro hin
    by_contra hnot
    rw [hr.only x (by simp only [mem_append] at hx ⊢; tauto)] at hin
    cases hin
  · intro hrun
    exact inLoop_iff.2 ⟨level, hr.within x hrun⟩

/-- The items with a property, around one of them. -/
theorem Contiguous.exists_around {p : Expr → Bool} (h : Contiguous p xs) (hx : x ∈ xs)
    (hp : p x = true) :
    ∃ a F b, xs = a ++ F ++ b ∧ x ∈ F ∧ (∀ y ∈ F, p y = true) ∧ ∀ y ∈ a ++ b, p y = false := by
  obtain ⟨a, F, b, rfl, ha, hF, hb⟩ := h.split
  have hout : ∀ y ∈ a ++ b, p y = false := fun y hy => (mem_append.1 hy).elim (ha y) (hb y)
  refine ⟨a, F, b, rfl, ?_, hF, hout⟩
  by_contra hxF
  rw [hout x (by simp only [mem_append] at hx ⊢; tauto)] at hp
  cases hp

/-- Each loop of a schedule is a run. -/
theorem Scheduled.exists_run (h : Scheduled depth loops xs) (hn : LoopsAgree xs) (hx : x ∈ xs)
    (hid : x.loopIds[level]? = some id) (hreal : id.isSentinel = false) :
    ∃ pre run post, xs = pre ++ run ++ post ∧ Run level id pre run post := by
  have htag : id ∈ LoopId.loops x.loopIds := LoopId.mem_loops.2 ⟨mem_of_getElem? hid, hreal⟩
  obtain ⟨pre, run, post, rfl, hxrun, hrun, hout⟩ :=
    (h.together x hx id htag).exists_around hx (inLoop_iff.2 ⟨level, hid⟩)
  refine ⟨pre, run, post, rfl, hreal, ne_nil_of_mem hxrun, fun y hy => ?_, hout⟩
  exact hn.inside hx (by simp [hy]) hid hid (Nat.le_refl _) hreal (hrun y hy)

/-- Another loop of the same level lies before the run or behind it. -/
theorem Run.beside (hr : Run level id pre run post) (h : Scheduled depth loops (pre ++ run ++ post))
    (hn : LoopsAgree (pre ++ run ++ post)) (hx : x ∈ pre ++ run ++ post) (hf : x.loopIds[level]? = some f)
    (hreal : f.isSentinel = false) (hne : f ≠ id) :
    (∃ a F b, pre = a ++ F ++ b ∧ x ∈ F ∧ Run level f a F (b ++ run ++ post)) ∨
      ∃ a F b, post = a ++ F ++ b ∧ x ∈ F ∧ Run level f (pre ++ run ++ a) F b := by
  have hc := h.together x hx f (LoopId.mem_loops.2 ⟨mem_of_getElem? hf, hreal⟩)
  have hxin : x.inLoop f = true := inLoop_iff.2 ⟨level, hf⟩
  have hat {y : Expr} (hy : y ∈ pre ++ run ++ post) (hin : y.inLoop f = true) : y.loopIds[level]? = some f :=
    hn.inside hx hy hf hf (Nat.le_refl _) hreal hin
  have hnot : ∀ y ∈ run, y.inLoop f = false := fun y hy => Bool.eq_false_iff.2 fun hin => hne <| by
    have hlevel := hat (by simp [hy]) hin
    rw [hr.within y hy] at hlevel
    exact (Option.some.inj hlevel).symm
  have hside {ys zs : List Expr} (hys : ∀ y ∈ ys, y.inLoop f = false) (hxs : x ∈ ys ∨ x ∈ run ∨ x ∈ zs) : x ∈ zs := by
    rcases hxs with hx | hx | hx
    · exact absurd hxin (Bool.eq_false_iff.1 (hys x hx))
    · exact absurd hxin (Bool.eq_false_iff.1 (hnot x hx))
    · exact hx
  simp only [mem_append, or_assoc] at hx
  rcases hc.apart hr.ne hnot with hpre | hpost
  · refine .inr ?_
    have hpart : Contiguous (·.inLoop f) post := (show Contiguous _ ((pre ++ run) ++ post ++ []) by simpa using hc).part
    obtain ⟨a, F, b, rfl, hxF, hF, hout⟩ := hpart.exists_around (hside hpre hx) hxin
    refine ⟨a, F, b, rfl, hxF, hreal, ne_nil_of_mem hxF, fun y hy => hat (by simp [hy]) (hF y hy), fun y hy => ?_⟩
    simp only [mem_append] at hy hout
    rcases hy with ((hy | hy) | hy) | hy
    exacts [hpre y hy, hnot y hy, hout y (.inl hy), hout y (.inr hy)]
  · refine .inl ?_
    have hpart : Contiguous (·.inLoop f) pre := (show Contiguous _ ([] ++ pre ++ (run ++ post)) by simpa using hc).part
    obtain ⟨a, F, b, rfl, hxF, hF, hout⟩ := hpart.exists_around (hside hpost (by tauto)) hxin
    refine ⟨a, F, b, rfl, hxF, hreal, ne_nil_of_mem hxF, fun y hy => hat (by simp [hy]) (hF y hy), fun y hy => ?_⟩
    simp only [mem_append] at hy hout
    rcases hy with hy | (hy | hy) | hy
    exacts [hout y (.inl hy), hout y (.inr hy), hnot y hy, hpost y hy]

/-- Two runs of one level face each other when one expression of each lie in the same outer
    loops. -/
theorem Facing.of_runs (hf : Run level f pre F (mid ++ S ++ post))
    (hs : Run level s (pre ++ F ++ mid) S post)
    (hn : LoopsAgree (pre ++ F ++ mid ++ S ++ post)) (hx : x ∈ F) (hy : y ∈ S)
    (htake : x.loopIds.take level = y.loopIds.take level) : Facing level f s pre F mid S post where
  real_first := hf.real
  real_second := hs.real
  first_ne := hf.ne
  second_ne := hs.ne
  first := hf.within
  second := hs.within
  only_first z hz := hf.only z (by simpa using hz)
  only_second z hz := hs.only z (by simpa using hz)
  outer z hz w hw := by
    have hshare {a b : Expr} {i : LoopId} (ha : a ∈ pre ++ F ++ mid ++ S ++ post)
      (hb : b ∈ pre ++ F ++ mid ++ S ++ post)
        (hai : a.loopIds[level]? = some i) (hbi : b.loopIds[level]? = some i) (hreal : i.isSentinel = false) :
        a.loopIds.take level = b.loopIds.take level :=
      (hn.agree ha hb hai hbi hreal).2
    calc z.loopIds.take level
        = x.loopIds.take level := hshare (by simp [hz]) (by simp [hx]) (hf.within z hz) (hf.within x hx) hf.real
      _ = y.loopIds.take level := htake
      _ = w.loopIds.take level := hshare (by simp [hy]) (by simp [hw]) (hs.within y hy) (hs.within w hw) hs.real

end Runs

/-! ## Questions about ports and ranges -/

section Questions

variable {α : Type} {k : Kernel} {pre seg post : List Expr} {x y : Expr} {p : Port} {t : Tensor}

/-- A question asked of every item has an answer when it has one for each. -/
theorem exists_allM {question : α → Except Failure Bool} {as : List α}
    (h : ∀ a ∈ as, ∃ b, question a = .ok b) :
    ∃ b, as.allM question = .ok b := by
  induction as with
  | nil => exact ⟨true, rfl⟩
  | cons a as ih =>
    obtain ⟨b, hb⟩ := h a mem_cons_self
    rw [List.allM, hb]
    cases b with
    | false => exact ⟨false, rfl⟩
    | true => exact ih fun a ha => h a (mem_cons_of_mem _ ha)

theorem of_allM_true {question : α → Except Failure Bool} {as : List α}
    (h : as.allM question = .ok true) :
    ∀ a ∈ as, question a = .ok true := by
  induction as with
  | nil =>
    intro a ha
    cases ha
  | cons a as ih =>
    rw [List.allM] at h
    obtain ⟨b, hb, h⟩ := of_except_bind_ok h
    cases b with
    | false => cases h
    | true =>
      intro a' ha'
      rcases mem_cons.1 ha' with rfl | ha'
      · exact hb
      · exact ih h a' ha'

/-- Steps that each have an answer, given what held after the items before, have an answer
    together. -/
theorem foldlM_ok {β : Type} (holds : List α → β → Prop) {step : β → α → Except Failure β}
    {as : List α} {b : β}
    (hnil : holds [] b)
    (hstep : ∀ done, ∀ a ∈ as, ∀ b, holds done b → ∃ b', step b a = .ok b' ∧ holds (done ++ [a]) b') :
    ∃ b', as.foldlM step b = .ok b' ∧ holds as b' := by
  have hfrom : ∀ (done rest : List α) (b : β), (∀ a ∈ rest, a ∈ as) → holds done b →
      ∃ b', rest.foldlM step b = .ok b' ∧ holds (done ++ rest) b' := by
    intro done rest
    induction rest generalizing done with
    | nil => exact fun b _ hb => ⟨b, rfl, by simpa using hb⟩
    | cons a rest ih =>
      intro b hsub hb
      obtain ⟨b1, hb1, hdone⟩ := hstep done a (hsub a mem_cons_self) b hb
      obtain ⟨b2, hb2, hall⟩ := ih (done ++ [a]) b1 (fun a' ha' => hsub a' (mem_cons_of_mem _ ha')) hdone
      refine ⟨b2, ?_, by simpa using hall⟩
      rw [foldlM_cons, hb1]
      exact hb2
  exact hfrom [] as b (fun _ => id) hnil

theorem findOn_append {e : ExprId} {seg post : List ExprId} (h : (seg ++ post).Nodup) :
    Kernel.findOn post.head? (some e) (seg ++ post) = .ok (if e ∈ seg then some e else post.head?) := by
  induction seg with
  | nil =>
    cases post with
    | nil => rfl
    | cons a as => simp [Kernel.findOn]
  | cons a seg ih =>
    have hnot : a ∉ post := fun ha => (nodup_cons.1 h).1 (mem_append_right _ ha)
    have hstop : some a ≠ post.head? := fun heq => hnot (mem_of_head? heq.symm)
    rw [cons_append, Kernel.findOn, if_neg hstop]
    by_cases hae : a = e
    · subst hae
      simp
    · rw [if_neg (by simpa using hae), ih (nodup_cons.1 h).2]
      simp [Ne.symm hae]

namespace Kernel.Lists

/-- The walk from an expression on goes through what is listed from there. -/
theorem walkFrom (h : k.Lists (pre ++ post)) :
    k.walkFrom (post.head?.map Expr.id) = post.map Expr.id := by
  cases post with
  | nil => rfl
  | cons x post => simp [Kernel.walkFrom, h.behind]

/-- An expression lies in a range when it is listed there. -/
theorem inRange (h : k.Lists (pre ++ seg ++ post)) (hx : x ∈ pre ++ seg ++ post) :
    k.inRange ((seg ++ post).head?.map Expr.id) (post.head?.map Expr.id) (some x.id) = .ok (decide (x ∈ seg)) := by
  have hnodup := h.nodup
  have hmem : x.id ∈ seg.map Expr.id ↔ x ∈ seg := by
    refine ⟨fun hid => ?_, mem_map_of_mem⟩
    obtain ⟨y, hy, hyx⟩ := mem_map.1 hid
    rwa [← h.eq_of_id (by simp [hy]) hx hyx]
  have hwalk : k.walkFrom ((seg ++ post).head?.map Expr.id) = seg.map Expr.id ++ post.map Expr.id := by
    rw [walkFrom (show k.Lists (pre ++ (seg ++ post)) by simpa using h), map_append]
  have hsuffix : (seg.map Expr.id ++ post.map Expr.id).Nodup := by
    rw [append_assoc, map_append, map_append] at hnodup
    exact (nodup_append.1 hnodup).2.1
  unfold Kernel.inRange
  by_cases hstop : some x.id = post.head?.map Expr.id
  · rw [if_pos (by simp [hstop])]
    refine congrArg Except.ok (decide_eq_false fun hseg => ?_).symm
    rw [← head?_map] at hstop
    have hpost : x.id ∈ post.map Expr.id := mem_of_head? hstop.symm
    exact (nodup_append.1 hsuffix).2.2 _ (mem_map_of_mem hseg) _ hpost rfl
  · rw [if_neg (by simp [hstop]), Kernel.find, hwalk, ← head?_map, findOn_append hsuffix]
    rw [← head?_map] at hstop
    by_cases hseg : x ∈ seg
    · simp [hmem, hseg, Functor.map, Except.map]
    · rw [if_neg fun hin => hseg (hmem.1 hin)]
      show Except.ok (decide _) = _
      rw [decide_eq_false (Ne.symm hstop), decide_eq_false hseg]

theorem tensorAt (h : k.Lists xs) (hx : x ∈ xs) (hid : x.id = p.expr)
    (ht : (x.onSide p.side)[p.index]? = some t) :
    k.tensorAt p = .ok t := by
  rw [Kernel.tensorAt, ← hid, h.read x hx]
  cases hside : p.side with
  | input =>
    rw [hside] at ht
    exact fetch_eq_ok_iff.2 ht
  | output =>
    rw [hside] at ht
    exact fetch_eq_ok_iff.2 ht

end Kernel.Lists

/-- A tensor has one maker. -/
theorem Scheduled.maker_eq {depth : Nat} {loops : LoopTable} (h : Scheduled depth loops xs)
    (hx : x ∈ xs)
    (hy : y ∈ xs) (hxu : x.makes u = true) (hyu : y.makes u = true) : x = y := by
  by_contra hne
  have hmade {z : Expr} (hz : z.makes u = true) : u ∈ z.outputs.map Tensor.id := by
    obtain ⟨v, hv, hvu⟩ := any_eq_true.1 hz
    exact mem_map.2 ⟨v, hv, of_decide_eq_true hvu⟩
  have hsymm : Std.Symm (Function.onFun List.Disjoint fun x : Expr => x.outputs.map Tensor.id) := 
    ⟨fun _ _ h u hu hu' => h hu' hu⟩
  exact (nodup_flatMap.1 h.once).2.forall hx hy hne (hmade hxu) (hmade hyu)

namespace Kernel.Lists

theorem carries_consumer (h : k.Lists xs) (hp : p ∈ k.consumers u) : p.Carries xs u := by
  obtain ⟨x, hx, hid, hside, v, hv, hu⟩ := h.mem_consumers.1 hp
  exact ⟨x, hx, hid.symm, v, by rw [hside]; exact hv, hu.symm⟩

theorem consumer_of_carries (h : k.Lists xs) (hp : p.Carries xs u) (hside : p.side = .input) :
    p ∈ k.consumers u := by
  obtain ⟨x, hx, hid, v, hv, hu⟩ := hp
  rw [hside] at hv
  exact h.mem_consumers.2 ⟨x, hx, hid.symm, hside, v, hv, hu.symm⟩

/-- An expression that uses a tensor has a port among its consumers. -/
theorem exists_consumer (h : k.Lists xs) (hx : x ∈ xs) (hu : x.uses u = true) :
    ∃ p ∈ k.consumers u, p.expr = x.id := by
  obtain ⟨v, hv, hvu⟩ := any_eq_true.1 hu
  obtain ⟨i, hi⟩ := mem_iff_getElem?.1 hv
  exact ⟨⟨x.id, .input, i⟩, h.mem_consumers.2 ⟨x, hx, rfl, rfl, v, hi, (of_decide_eq_true hvu).symm⟩, rfl⟩

/-- The first producer of a tensor makes it. -/
theorem of_head?_producers (h : k.Lists xs) (hp : (k.producers u).head? = some p) :
    ∃ x ∈ xs, x.id = p.expr ∧ x.makes u = true := by
  obtain ⟨x, hx, hid, -, v, hv, hu⟩ := h.mem_producers.1 (mem_of_head? hp)
  exact ⟨x, hx, hid.symm, hu ▸ Expr.makes_of_getElem? hv⟩

/-- A tensor that is made has a first producer. -/
theorem exists_producer (h : k.Lists xs) (hx : x ∈ xs) (hu : x.makes u = true) :
    ∃ p, (k.producers u).head? = some p := by
  obtain ⟨i, v, hv, hvu⟩ := Expr.exists_of_makes hu
  have hmem : (⟨x.id, .output, i⟩ : Port) ∈ k.producers u := h.mem_producers.2 ⟨x, hx, rfl, rfl, v, hv, hvu.symm⟩
  cases hp : k.producers u with
  | nil => rw [hp] at hmem; cases hmem
  | cons p ps => exact ⟨p, rfl⟩

end Kernel.Lists

end Questions

/-! ## May a loop be taken in? -/

/-- The kernel lists a schedule in which no data crosses loops. -/
structure Kernel.Fusible (depth : Nat) (k : Kernel) (xs : List Expr) : Prop where
  depth_le : depth ≤ 2 ^ 63
  lists : k.Lists xs
  scheduled : Scheduled depth k.loops xs
  nested : LoopsAgree xs
  uncrossed : Uncrossed k.loops xs

namespace Fusion

variable {k : Kernel} {depth level : Nat} {pre F mid S post : List Expr} {id target f s : LoopId}
  {info : LoopInfo}

theorem fetch_level (h : Scheduled depth k.loops xs) (hlevel : level < depth) {x : Expr}
    (hx : x ∈ xs) :
    ∃ i, fetch x.loopIds (level : Int) = .ok i ∧ x.loopIds[level]? = some i := by
  have hlt : level < x.loopIds.length := by rw [h.levels x hx]; exact hlevel
  exact ⟨x.loopIds[level], fetch_eq_ok_iff.2 (getElem?_eq_getElem hlt), getElem?_eq_getElem hlt⟩

/-- The range of a loop is where its run is. -/
theorem loopBounds_ok {run : List Expr} (hl : k.Lists (pre ++ run ++ post))
    (hr : Run level id pre run post)
    (hinfo : k.loops.get? id = some info) (hb : info.Bounds (pre ++ run ++ post) id) :
    ∃ start, run.head? = some start ∧ k.loopBounds id = .ok (start.id, post.head?.map Expr.id) := by
  have horder : k.order = pre.map Expr.id ++ run.map Expr.id ++ post.map Expr.id := by
    rw [hl.order, map_append, map_append]
  have hports : info.ports ≠ [] := append_ne_nil_of_right_ne_nil _ hb.nonempty
  have hread : ∀ x ∈ pre ++ run ++ post, k.expr x.id = x := hl.read
  obtain ⟨start, hstart, hbounds⟩ := Kernel.loopBounds_eq hinfo hports horder
    (forall_mem_map.2 fun x hx => by rw [hread x (by simp [hx])]; exact hr.only x (by simp [hx]))
    (forall_mem_map.2 fun x hx => by rw [hread x (by simp [hx])]; exact inLoop_iff.2 ⟨level, hr.within x hx⟩)
    (forall_mem_map.2 fun x hx => by rw [hread x (by simp [hx])]; exact hr.only x (by simp [hx]))
    (fun p hp => by
      obtain ⟨x, hx, hin, hid⟩ := hb.exists_mem hp
      exact hid ▸ mem_map_of_mem ((hr.mem_iff hx).1 hin))
  rw [head?_map] at hstart hbounds
  obtain ⟨x, hx, rfl⟩ := Option.map_eq_some_iff.1 hstart
  exact ⟨x, hx, hbounds⟩

/-- A producing loop that fits makes nothing that is used between it and the current loop. -/
theorem producerFits_ok (hk : k.Fusible depth (pre ++ F ++ mid ++ S ++ post))
    (hw : Facing level target id pre F mid S post) (hlevel : level < depth)
    (hinfo : info.Bounds (pre ++ F ++ mid ++ S ++ post) target) {entry : Port} (he : e ∈ S)
    (hentry : entry.expr = e.id) :
    ∃ b, producerFits k entry id target level (post.head?.map Expr.id) info.exits = .ok b ∧
      (b = true → ∀ x ∈ F, ∀ y ∈ mid, ¬x.Precedes y) := by
  unfold producerFits
  have hrange {c : Expr} (hc : c ∈ pre ++ F ++ mid ++ S ++ post) :
      k.inRange (post.head?.map Expr.id) none (some c.id) = .ok (decide (c ∈ post)) := by
    have hlisted : k.Lists ((pre ++ F ++ mid ++ S) ++ post ++ []) := by simpa using hk.lists
    simpa using hlisted.inRange (x := c) (by simpa using hc)
  refine (exists_allM fun exit hexit => ?_).imp fun b hb => ⟨hb, ?_⟩
  · obtain ⟨hside, x, hx, -, hid, t, ht⟩ := mem_outputPorts.1 (hinfo.own exit hexit)
    rw [hk.lists.tensorAt hx hid (by rw [hside]; exact ht)]
    refine exists_allM fun p hp => ?_
    obtain ⟨c, hc, hcid, -⟩ := hk.lists.mem_consumers.1 hp
    obtain ⟨tag, htag, -⟩ := fetch_level hk.scheduled hlevel hc
    simp only [hcid, hk.lists.read c hc]
    split
    · exact ⟨true, rfl⟩
    · simp only [htag]
      show ∃ b, ite _ _ _ = Except.ok b
      split
      · exact ⟨true, rfl⟩
      · exact ⟨_, hrange hc⟩
  · intro htrue x hx y hy hxy
    subst htrue
    have hxs : x ∈ pre ++ F ++ mid ++ S ++ post := by simp [hx]
    have hys : y ∈ pre ++ F ++ mid ++ S ++ post := by simp [hy]
    obtain ⟨-, -, hresult, t, ht, huses⟩ := hxy
    obtain ⟨i, hi⟩ := mem_iff_getElem?.1 ht
    obtain ⟨p, hp, hpid⟩ := hk.lists.exists_consumer hys huses
    have hexit : (⟨x.id, .output, i⟩ : Port) ∈ info.exits :=
      hinfo.used _ (mem_exitPorts.2 ⟨rfl, x, hxs, (hw.mem_first hxs).2 hx, rfl, t, hi, y, hys,
        hw.only_first y (by simp [hy]), huses⟩)
    have hall := of_allM_true hb _ hexit
    rw [hk.lists.tensorAt (p := ⟨x.id, .output, i⟩) hxs rfl hi] at hall
    have hfit := of_allM_true hall p hp
    obtain ⟨tag, htag, htagAt⟩ := fetch_level hk.scheduled hlevel hys
    have hbehind : ∀ z ∈ S ++ post, y ≠ z := by
      have hnodup := hk.lists.nodup.of_map
      rw [append_assoc _ S post] at hnodup
      exact (nodup_append.1 hnodup).2.2 y (by simp [hy])
    have hapart : y.id ≠ entry.expr := by
      rw [hentry]
      exact fun hid => hbehind e (by simp [he]) (hk.lists.eq_of_id hys (by simp [he]) hid)
    have htarget : tag ≠ target := ne_of_not_inLoop (hw.only_first y (by simp [hy])) htagAt
    have hcurrent : tag ≠ id := ne_of_not_inLoop (hw.only_second y (by simp [hy])) htagAt
    simp only [hpid, hk.lists.read y hys, hresult, hapart, htag, decide_false, Bool.or_self, Bool.false_eq_true,
      if_false] at hfit
    replace hfit : ite _ _ _ = Except.ok true := hfit
    rw [if_neg (by simp [htarget, hcurrent]), hrange hys] at hfit
    exact hbehind y (mem_append_right _ (of_decide_eq_true (Except.ok.inj hfit))) rfl

/-- A consuming loop that fits uses nothing that is made between the current loop and it. -/
theorem consumerFits_ok (hk : k.Fusible depth (pre ++ F ++ mid ++ S ++ post))
    (hw : Facing level id target pre F mid S post) (hlevel : level < depth)
    (hinfo : info.Bounds (pre ++ F ++ mid ++ S ++ post) target) {exit : Port} (he : e ∈ F) (hexit : exit.expr = e.id)
    (hstart : F.head? = some start) :
    ∃ b, consumerFits k exit id level start.id info.entries = .ok b ∧
      (b = true → ∀ x ∈ mid, ∀ y ∈ S, ¬x.Precedes y) := by
  unfold consumerFits
  have hrange {c : Expr} (hc : c ∈ pre ++ F ++ mid ++ S ++ post) :
      k.inRange k.first? (some start.id) (some c.id) = .ok (decide (c ∈ pre)) := by
    have hlisted : k.Lists ([] ++ pre ++ (F ++ mid ++ S ++ post)) := by simpa using hk.lists
    have hin := hlisted.inRange (x := c) (by simpa using hc)
    have hfirst : k.first? = (pre ++ (F ++ mid ++ S ++ post)).head?.map Expr.id := by
      rw [Kernel.first?, hk.lists.order, head?_map]
      simp
    rw [hfirst]
    simpa [hstart] using hin
  refine (exists_allM fun entry hentry => ?_).imp fun b hb => ⟨hb, ?_⟩
  · obtain ⟨hside, x, hx, -, hid, t, ht, -⟩ := mem_entryPorts.1 (hinfo.entries.mem_iff.1 hentry)
    rw [hk.lists.tensorAt hx hid (by rw [hside]; exact ht)]
    simp only [bind, Except.bind]
    cases hproducer : (k.producers t.id).head? with
    | none => exact ⟨true, rfl⟩
    | some port =>
      obtain ⟨c, hc, hcid, -⟩ := hk.lists.of_head?_producers hproducer
      obtain ⟨tag, htag, -⟩ := fetch_level hk.scheduled hlevel hc
      simp only [← hcid, hk.lists.read c hc]
      split
      · exact ⟨true, rfl⟩
      · simp only [htag]
        show ∃ b, ite _ _ _ = Except.ok b
        split
        · exact ⟨true, rfl⟩
        · exact ⟨_, hrange hc⟩
  · intro htrue x hx y hy hxy
    subst htrue
    have hxs : x ∈ pre ++ F ++ mid ++ S ++ post := by simp [hx]
    have hys : y ∈ pre ++ F ++ mid ++ S ++ post := by simp [hy]
    obtain ⟨hparameter, hconstant, -, t, ht, huses⟩ := hxy
    have hmakes : x.makes t.id = true := any_eq_true.2 ⟨t, ht, decide_eq_true rfl⟩
    obtain ⟨p, hp, hpid⟩ := hk.lists.exists_consumer hys huses
    obtain ⟨y', hy', hpid', hside, u, hu, hut⟩ := hk.lists.mem_consumers.1 hp
    obtain rfl := hk.lists.eq_of_id hy' hys (hpid'.symm.trans hpid)
    -- The tensor is made outside the loop, so the port that uses it is an entry.
    have hentry : p ∈ info.entries := by
      refine hinfo.entries.mem_iff.2 (mem_entryPorts.2 ⟨hside, y', hys, (hw.mem_second hys).2 hy, hpid.symm, u, hu, ?_⟩)
      intro z hz hzin
      refine Bool.eq_false_iff.2 fun hzmakes => ?_
      obtain rfl := hk.scheduled.maker_eq hz hxs (hut ▸ hzmakes) hmakes
      rw [hw.only_second z (by simp [hx])] at hzin
      cases hzin
    have hfit := of_allM_true hb _ hentry
    rw [hk.lists.tensorAt (t := u) hys hpid.symm (by rw [hside]; exact hu)] at hfit
    obtain ⟨port, hproducer⟩ := hk.lists.exists_producer hxs hmakes
    obtain ⟨z, hz, hzid, hzmakes⟩ := hk.lists.of_head?_producers hproducer
    obtain rfl := hk.scheduled.maker_eq hz hxs hzmakes hmakes
    obtain ⟨tag, htag, htagAt⟩ := fetch_level hk.scheduled hlevel hxs
    have hbefore : ∀ w ∈ pre ++ F, w ≠ z := by
      have hnodup := hk.lists.nodup.of_map
      rw [append_assoc, append_assoc] at hnodup
      exact fun w hw => (nodup_append.1 hnodup).2.2 w hw z (by simp [hx])
    have hapart : z.id ≠ exit.expr := by
      rw [hexit]
      exact fun hid => hbefore e (by simp [he]) (hk.lists.eq_of_id (by simp [he]) hxs hid.symm)
    have hcurrent : tag ≠ id := ne_of_not_inLoop (hw.only_first z (by simp [hx])) htagAt
    simp only [bind, Except.bind] at hfit
    rw [← hut, hproducer] at hfit
    simp only [← hzid, hk.lists.read z hz, hparameter, hconstant, hapart, htag, decide_false, Bool.or_self,
      Bool.false_eq_true, if_false] at hfit
    replace hfit : ite _ _ _ = Except.ok true := hfit
    rw [if_neg hcurrent, hrange hz] at hfit
    exact hbefore z (mem_append_left _ (of_decide_eq_true (Except.ok.inj hfit))) rfl

/-- Among the consumers of one exit, those that are entries go, and any other outside the range
    keeps the exit. -/
theorem foldlM_consumers_ok (hl : k.Lists xs) {start stop : Option ExprId}
    (hrange : ∀ c ∈ xs, k.inRange start stop (some c.id) = .ok (decide (c ∈ F))) (u : TensorId) {entries : List Port}
    (hentries : entries.Nodup) :
    ∃ r, (k.consumers u).foldlM (fun (outside, entries) p => do
        if entries.contains p then return (outside, entries.erase p)
        let inside ← k.inRange start stop (some p.expr)
        return (outside || !inside, entries)) (false, entries) = .ok r ∧
      r.2.Nodup ∧ (∀ p, p ∈ r.2 ↔ p ∈ entries ∧ p ∉ k.consumers u) ∧
      ∀ p ∈ k.consumers u, p ∉ entries → (∀ x ∈ F, x.id ≠ p.expr) → r.1 = true := by
  refine foldlM_ok (fun (done : List Port) (r : Bool × List Port) => r.2.Nodup ∧
    (∀ p, p ∈ r.2 ↔ p ∈ entries ∧ p ∉ done) ∧
    ∀ p ∈ done, p ∉ entries → (∀ x ∈ F, x.id ≠ p.expr) → r.1 = true) ?_ ?_
  · exact ⟨hentries, by simp, by simp⟩
  · rintro done p hp ⟨outside, es⟩ ⟨hnodup, hmem, hkeep⟩
    obtain ⟨c, hc, hcid, -⟩ := hl.mem_consumers.1 hp
    by_cases hpes : es.contains p = true
    · refine ⟨(outside, es.erase p), by simp only [hpes, if_true]; rfl, hnodup.erase p, fun q => ?_,
        fun q hq hqe hqF => ?_⟩
      · rw [hnodup.mem_erase_iff, hmem]
        simp only [mem_append, mem_singleton]
        tauto
      · rcases mem_append.1 hq with hq | hq
        · exact hkeep q hq hqe hqF
        · rw [mem_singleton.1 hq] at hqe
          exact absurd ((hmem p).1 (contains_iff_mem.1 hpes)).1 hqe
    · refine ⟨(outside || !decide (c ∈ F), es), ?_, hnodup, fun q => ?_, fun q hq hqe hqF => ?_⟩
      · simp only [hpes, hcid, hrange c hc]
        rfl
      · have hnot : p ∉ es := fun h => hpes (contains_iff_mem.2 h)
        simp only [mem_append, mem_singleton, not_or]
        refine ⟨fun hq => ⟨((hmem q).1 hq).1, ((hmem q).1 hq).2, ?_⟩, fun hq => (hmem q).2 ⟨hq.1, hq.2.1⟩⟩
        rintro rfl
        exact hnot hq
      · rw [Bool.or_eq_true]
        rcases mem_append.1 hq with hq | hq
        · exact .inl (hkeep q hq hqe hqF)
        · rw [mem_singleton.1 hq, hcid] at hqF
          exact .inr (by simpa using fun hcF => hqF c hcF rfl)

/-- The boundary between two loops, once the second is taken in by the first or the other way
    round. -/
theorem joinBoundary_ok {rest : List Expr} {first second : LoopInfo} (hl : k.Lists xs)
    (hxs : xs = pre ++ F ++ rest)
    (hF : ∀ x ∈ xs, x.inLoop f = true ↔ x ∈ F) (hstart : F.head? = some start) (hfirst : first.Bounds xs f)
    (hsecond : second.Bounds xs s) :
    ∃ exits entries, joinBoundary k start.id (rest.head?.map Expr.id) first.exits second.entries =
      .ok (exits, entries) ∧
      Joint xs f s first.exits second.entries exits entries := by
  have hrange : ∀ c ∈ xs, k.inRange (some start.id) (rest.head?.map Expr.id) (some c.id) = .ok (decide (c ∈ F)) := by
    intro c hc
    have hin := Kernel.Lists.inRange (x := c) (hxs ▸ hl) (hxs ▸ hc)
    simpa [hstart] using hin
  have hnodup : second.entries.Nodup := hsecond.entries.nodup_iff.2 (nodup_entryPorts hl.nodup)
  have hcarries {p : Port} (hp : p ∈ second.entries) (u : TensorId) : p ∈ k.consumers u ↔ p.Carries xs u :=
    ⟨hl.carries_consumer,
      fun h => hl.consumer_of_carries h (mem_entryPorts.1 (hsecond.entries.mem_iff.1 hp)).1⟩
  -- Each exit has dealt with the entries that it feeds.
  obtain ⟨⟨exits, entries⟩, hr, hjoint⟩ : ∃ r, joinBoundary k start.id (rest.head?.map Expr.id) first.exits
      second.entries = .ok r ∧ Joint xs f s first.exits second.entries r.1 r.2 := by
    refine foldlM_ok (fun done (r : List Port × List Port) => Joint xs f s done second.entries r.1 r.2)
      ⟨hnodup, by simp, by simp, by simp⟩ ?_
    rintro done exit hexit ⟨kept, es⟩ (hdone : Joint xs f s done second.entries kept es)
    obtain ⟨hside, x, hx, hxf, hid, t, ht⟩ := mem_outputPorts.1 (hfirst.own exit hexit)
    have hcarried {u : TensorId} (hu : exit.Carries xs u) : u = t.id := by
      obtain ⟨v, hv, rfl⟩ := hu.of_mem hl.nodup hx hid
      rw [hside] at hv
      rw [Option.some.inj (hv.symm.trans ht)]
    obtain ⟨⟨outside, es'⟩, hr, hes', hmem', houtside⟩ := foldlM_consumers_ok hl hrange t.id hdone.nodup
    refine ⟨(if outside then kept ++ [exit] else kept, es'), ?_, hes', fun p => ?_, fun q hq => ?_, ?_⟩
    · refine (except_bind_ok (hl.tensorAt hx hid (by rw [hside]; exact ht))).trans ?_
      exact (except_bind_ok hr).trans rfl
    · rw [hmem', hdone.mem_entries]
      constructor
      · rintro ⟨⟨hp, hfree⟩, hnot⟩
        refine ⟨hp, fun q hq u hqu hpu => ?_⟩
        rcases mem_append.1 hq with hq | hq
        · exact hfree q hq u hqu hpu
        · rw [mem_singleton.1 hq] at hqu
          exact hnot ((hcarries hp _).2 (hcarried hqu ▸ hpu))
      · rintro ⟨hp, hfree⟩
        refine ⟨⟨hp, fun q hq => hfree q (mem_append_left _ hq)⟩, fun hpt => ?_⟩
        exact hfree exit (by simp) t.id ⟨x, hx, hid, t, by rw [hside]; exact ht, rfl⟩ ((hcarries hp _).1 hpt)
    · rw [mem_append]
      replace hq : q ∈ if outside then kept ++ [exit] else kept := hq
      split at hq
      · exact (mem_append.1 hq).imp (hdone.exits_sub q) id
      · exact .inl (hdone.exits_sub q hq)
    · intro q hq u hqu z hz hzf hzs huses
      show q ∈ if outside then kept ++ [exit] else kept
      rcases mem_append.1 hq with hq | hq
      · have hkept := hdone.used q hq u hqu z hz hzf hzs huses
        split
        · exact mem_append_left _ hkept
        · exact hkept
      · -- The expression outside both loops keeps this exit.
        obtain rfl := mem_singleton.1 hq
        obtain ⟨p, hp, hpid⟩ := hl.exists_consumer hz (hcarried hqu ▸ huses)
        have hentry : p ∉ es := by
          intro hpes
          obtain ⟨-, y, hy, hys, hyid, -⟩ :=
            mem_entryPorts.1 (hsecond.entries.mem_iff.1 ((hdone.mem_entries p).1 hpes).1)
          rw [hl.eq_of_id hy hz (hyid.trans hpid), hzs] at hys
          cases hys
        have hout : outside = true := houtside p hp hentry fun w hw hwid => by
          have hwxs : w ∈ xs := hxs ▸ by simp [hw]
          have hin := (hF w hwxs).2 hw
          rw [hl.eq_of_id hwxs hz (hwid.trans hpid), hzf] at hin
          cases hin
        rw [if_pos hout]
        exact mem_append_right _ hq
  exact ⟨exits, entries, hr, hjoint⟩

end Fusion

end KernelLoops
