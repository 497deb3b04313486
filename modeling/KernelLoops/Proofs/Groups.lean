import KernelLoops.Proofs.Schedule
import KernelLoops.Proofs.SweepingNests

set_option autoImplicit false

/-! # Kernels in groups

A kernel whose sequence falls into groups: the expressions of a group have the same tags, and no
loop holds expressions of two groups. Its loops are properly nested, and materializing them wraps
each group in its own (`Kernel.Grouped.mark`). -/

namespace KernelLoops

open List

variable {c : Code} {x : Expr} {inserted : List LoopId} {id : LoopId}

namespace LoopId

theorem agree_self (ids : List LoopId) : agree ids ids = true := by
  induction ids with
  | nil => rfl
  | cons id ids ih => rw [agree, if_pos (by simp), ih]

/-- Levels that share no loop agree. -/
theorem agree_of_disjoint {ids ids' : List LoopId} (h : ∀ id ∈ loops ids, id ∉ ids') :
    agree ids ids' = true := by
  induction ids generalizing ids' with
  | nil => rfl
  | cons a as ih =>
    cases ids' with
    | nil => rfl
    | cons b bs =>
      rw [agree]
      split
      · exact ih fun id hid hmem => h id (mem_loops.2 ⟨mem_cons_of_mem a (mem_loops.1 hid).1, (mem_loops.1 hid).2⟩)
          (mem_cons_of_mem b hmem)
      · refine all_eq_true.2 fun id hid => ?_
        cases hs : id.isSentinel with
        | true => rfl
        | false =>
          have hnot := h id (mem_loops.2 ⟨hid, hs⟩)
          simpa using hnot

theorem loops_replicate_null (n : Nat) : loops (replicate n null) = [] :=
  filter_eq_nil_iff.2 fun id hid => by
    rw [eq_of_mem_replicate hid]
    decide

end LoopId

variable {π : Type}

/-- The sequence of the kernel falls into groups. -/
structure Kernel.Grouped (k : Kernel) (body : π → List Expr) (tags : π → List LoopId)
    (gs : List π) : Prop where
  lists : k.Lists (gs.flatMap body)
  tagged : ∀ g ∈ gs, ∀ x ∈ body g, x.loopIds = tags g
  once : ∀ g ∈ gs, (LoopId.loops (tags g)).Nodup
  adjacent : ∀ g ∈ gs, Contiguous (fun id => !id.isSentinel) (tags g)
  apart : gs.Pairwise fun g g' => ∀ id ∈ LoopId.loops (tags g), id ∉ tags g'
  boundary : ∀ g ∈ gs, ∀ id ∈ LoopId.loops (tags g), ∀ info ∈ k.loops.get? id, ∀ q ∈ info.ports,
    ∃ x ∈ body g, x.id = q.expr
  numbered : k.loops.Numbered

namespace Kernel.Grouped

variable {k : Kernel} {body : π → List Expr} {tags : π → List LoopId} {gs : List π}
  (h : k.Grouped body tags gs)

include h

theorem mem (hx : x ∈ k.sequence) : ∃ g ∈ gs, x ∈ body g := by
  rw [h.lists.sequence] at hx
  exact mem_flatMap.1 hx

theorem mem_sequence {g : π} (hg : g ∈ gs) (hx : x ∈ body g) : x ∈ k.sequence := by
  rw [h.lists.sequence]
  exact mem_flatMap.2 ⟨g, hg, hx⟩

/-- A loop belongs to one group. -/
theorem not_mem_of_apart {pre post : List π} {g : π} (hgs : gs = pre ++ g :: post)
    (hid : id ∈ LoopId.loops (tags g))
    {g' : π} (hg' : g' ∈ pre ++ post) : id ∉ tags g' := by
  have hapart := h.apart
  rw [hgs, pairwise_append, pairwise_cons] at hapart
  obtain ⟨-, ⟨hpost, -⟩, hpre⟩ := hapart
  rcases mem_append.1 hg' with hg' | hg'
  · intro hmem
    have hreal := (LoopId.mem_loops.1 hid).2
    exact hpre g' hg' g mem_cons_self id (LoopId.mem_loops.2 ⟨hmem, hreal⟩) (LoopId.mem_loops.1 hid).1
  · exact hpost g' hg' id hid

/-- The loops of a group hold its expressions and nothing else. -/
theorem exists_run {g : π} (hg : g ∈ gs) (hid : id ∈ LoopId.loops (tags g)) :
    ∃ before after, k.sequence = before ++ body g ++ after ∧ (∀ x ∈ before, x.inLoop id = false) ∧
      (∀ x ∈ body g, x.inLoop id = true) ∧ ∀ x ∈ after, x.inLoop id = false := by
  obtain ⟨pre, post, hgs⟩ := append_of_mem hg
  have hout : ∀ g' ∈ pre ++ post, ∀ x ∈ body g', x.inLoop id = false := by
    intro g' hg' x hx
    have hmem : g' ∈ gs := by
      rw [hgs]
      rcases mem_append.1 hg' with hg' | hg'
      · exact mem_append_left _ hg'
      · exact mem_append_right _ (mem_cons_of_mem _ hg')
    rw [Expr.inLoop, h.tagged g' hmem x hx]
    exact Bool.eq_false_iff.2 fun hin => h.not_mem_of_apart hgs hid hg' (contains_iff_mem.1 hin)
  refine ⟨pre.flatMap body, post.flatMap body, ?_, fun x hx => ?_, fun x hx => ?_, fun x hx => ?_⟩
  · rw [h.lists.sequence, hgs, flatMap_append, flatMap_cons, append_assoc]
  · obtain ⟨g', hg', hx⟩ := mem_flatMap.1 hx
    exact hout g' (mem_append_left _ hg') x hx
  · rw [Expr.inLoop, h.tagged g hg x hx]
    exact contains_iff_mem.2 (LoopId.mem_loops.1 hid).1
  · obtain ⟨g', hg', hx⟩ := mem_flatMap.1 hx
    exact hout g' (mem_append_right _ hg') x hx

theorem filter_inLoop {g : π} (hg : g ∈ gs) (hid : id ∈ LoopId.loops (tags g)) :
    k.sequence.filter (·.inLoop id) = body g := by
  obtain ⟨before, after, hseq, hbefore, hbody, hafter⟩ := h.exists_run hg hid
  have hnone : ∀ {xs : List Expr}, (∀ x ∈ xs, x.inLoop id = false) → xs.filter (·.inLoop id) = [] := fun hxs =>
    filter_eq_nil_iff.2 fun x hx => by rw [hxs x hx]; decide
  rw [hseq, filter_append, filter_append, hnone hbefore, hnone hafter, filter_eq_self.2 hbody,
    nil_append, append_nil]

/-- What tags an expression and is registered is a loop of its group. -/
theorem exists_of_get? (hx : x ∈ k.sequence) (hid : id ∈ x.loopIds) {info : LoopInfo}
    (hinfo : k.loops.get? id = some info) : ∃ g ∈ gs, x ∈ body g ∧ id ∈ LoopId.loops (tags g) := by
  obtain ⟨g, hg, hxg⟩ := h.mem hx
  rw [h.tagged g hg x hxg] at hid
  exact ⟨g, hg, hxg, LoopId.mem_loops.2 ⟨hid, h.numbered.isSentinel (Option.isSome_iff_exists.2 ⟨info, hinfo⟩)⟩⟩

theorem properlyNested : k.ProperlyNested := by
  constructor
  · intro x hx
    obtain ⟨g, hg, hx⟩ := h.mem hx
    rw [h.tagged g hg x hx]
    exact h.once g hg
  · intro x hx
    obtain ⟨g, hg, hx⟩ := h.mem hx
    rw [h.tagged g hg x hx]
    exact h.adjacent g hg
  · intro x hx y hy
    obtain ⟨g, hg, hx⟩ := h.mem hx
    obtain ⟨g', hg', hy⟩ := h.mem hy
    rw [h.tagged g hg x hx, h.tagged g' hg' y hy]
    obtain ⟨pre, post, hgs⟩ := append_of_mem hg
    have hcases : g' = g ∨ g' ∈ pre ++ post := by
      rw [hgs] at hg'
      rcases mem_append.1 hg' with hg' | hg'
      · exact .inr (mem_append_left _ hg')
      · exact (mem_cons.1 hg').imp_right (mem_append_right _)
    rcases hcases with rfl | hother
    · exact LoopId.agree_self _
    · exact LoopId.agree_of_disjoint fun id hid => h.not_mem_of_apart hgs hid hother
  · intro x hx id hid hreal
    obtain ⟨g, hg, hx⟩ := h.mem hx
    rw [h.tagged g hg x hx] at hid
    obtain ⟨before, after, hseq, hbefore, hbody, hafter⟩ := h.exists_run hg (LoopId.mem_loops.2 ⟨hid, hreal⟩)
    rw [hseq]
    exact .append_right (.append_left (contiguous_of_forall hbody) hbefore) hafter
  · intro x hx id hid info hinfo q hq
    obtain ⟨g, hg, -, hmem⟩ := h.exists_of_get? hx hid hinfo
    obtain ⟨y, hy, hid'⟩ := h.boundary g hg id hmem info hinfo q hq
    obtain ⟨-, -, -, -, hbody, -⟩ := h.exists_run hg hmem
    exact ⟨y, h.mem_sequence hg hy, hid', hbody y hy⟩

end Kernel.Grouped

/-! ## The code of a marked kernel -/

namespace Code.Marks

variable {k : Kernel} {path : List LoopId}

theorem eq_done (hc : c.Marks k inserted path) (h : c.ops = []) : c = done := by
  cases c with
  | done => rfl
  | op x rest => cases h
  | loop b e body rest =>
    obtain ⟨l, -, -, hne, -⟩ := hc
    exact absurd (append_eq_nil_iff.1 h).1 hne

/-- Marked code that starts with the expressions of a loop starts with the loop. -/
theorem peel (hc : c.Marks k inserted path) (hs : k.Stacked) (inner : List LoopId)
    {run after : List Expr}
    (hne : run ≠ []) (hops : c.ops = run ++ after)
    (htags : ∀ x ∈ run, x.loopIds.filter (inserted.contains ·) = path ++ id :: inner)
    (hrun : k.sequence.filter (·.inLoop id) = run) :
    ∃ b e body rest l, c = .loop b e body rest ∧ l.id = id ∧ e.Ends k l (!path.isEmpty) ∧ body.ops = run ∧
      body.Marks k inserted (path ++ [id]) ∧ rest.Marks k inserted path ∧ rest.ops = after := by
  obtain ⟨y, ys, hys⟩ := exists_cons_of_ne_nil hne
  cases c with
  | done =>
    rw [hys] at hops
    cases hops
  | op x rest =>
    -- an expression right here would lie in no further loop
    rw [Code.ops, hys, cons_append] at hops
    obtain ⟨rfl, -⟩ := List.cons.inj hops
    have hpath := hc.1.symm.trans (htags x (hys ▸ mem_cons_self))
    exact absurd (append_right_eq_self.1 hpath.symm) (cons_ne_nil id inner)
  | loop b e body rest =>
    obtain ⟨l, hends, hbody, hne', hmarks, hrest⟩ := hc
    have hmem : y ∈ body.ops := by
      obtain ⟨z, zs, hz⟩ := exists_cons_of_ne_nil hne'
      rw [Code.ops, hz, hys, cons_append, cons_append] at hops
      obtain ⟨rfl, -⟩ := List.cons.inj hops
      exact hz ▸ mem_cons_self
    have hprefix := hmarks.path_isPrefix hmem
    rw [htags y (hys ▸ mem_cons_self), prefix_append_right_inj, cons_prefix_cons] at hprefix
    have hid : l.id = id := hprefix.1
    have hbody' : body.ops = run := by
      rw [hbody, hid]
      exact hrun
    rw [Code.ops, hbody'] at hops
    exact ⟨b, e, body, rest, l, rfl, hid, hends.ends_stacked hs, hbody', hid ▸ hmarks, hrest, append_cancel_left hops⟩

end Code.Marks

/-- Markers of loops one inside the other, the outermost first. `outer` tells whether another loop
    is around them. -/
inductive Markers.Around (k : Kernel) : Bool → List LoopId → List (Expr × Expr) → Prop
  | nil (outer : Bool) : Around k outer [] []
  | cons {outer : Bool} {id : LoopId} {ids : List LoopId} {b e : Expr} {l : LoopParams} {ms : List (Expr × Expr)}
      (ends : e.Ends k l outer) (named : l.id = id) (inside : Around k true ids ms) :
      Around k outer (id :: ids) ((b, e) :: ms)

/-- The code of groups one after the other, each wrapped in its loops. -/
inductive Markers.Assembled (k : Kernel) (body : π → List Expr) (tags : π → List LoopId) : List π →
    Code → Prop
  | nil : Assembled k body tags [] .done
  | cons {g : π} {gs : List π} {ms : List (Expr × Expr)} {rest : Code}
    (around : Around k false (LoopId.loops (tags g)) ms)
      (others : Assembled k body tags gs rest) :
      Assembled k body tags (g :: gs) ((Code.wrap ms (.ofOps (body g) .done)).append rest)

/-- Marked code that starts with a run of expressions starts with the run in the loops that are not
    around it yet. -/
theorem Code.Marks.exists_around {k : Kernel} (hs : k.Stacked) {path ids : List LoopId}
    {run after : List Expr}
    (hne : run ≠ []) (htags : ∀ x ∈ run, x.loopIds.filter (inserted.contains ·) = path ++ ids)
    (hrun : ∀ id ∈ ids, k.sequence.filter (·.inLoop id) = run) (hc : c.Marks k inserted path)
    (hops : c.ops = run ++ after) :
    ∃ ms rest, c = (wrap ms (.ofOps run .done)).append rest ∧ Markers.Around k (!path.isEmpty) ids ms ∧
      rest.Marks k inserted path ∧ rest.ops = after := by
  induction ids generalizing path c after with
  | nil =>
    simp only [append_nil] at htags
    obtain ⟨rest, rfl⟩ := hc.eq_ofOps hops htags
    rw [ops_ofOps] at hops
    refine ⟨[], rest, ?_, .nil _, (Wraps.marks_ofOps hc).2, append_cancel_left hops⟩
    rw [wrap, append_ofOps]
    rfl
  | cons id ids ih =>
    obtain ⟨b, e, body, rest, l, rfl, hid, hends, hbody, hmarks, hrest, hafter⟩ :=
      hc.peel hs ids hne hops htags (hrun id mem_cons_self)
    obtain ⟨ms, rest', rfl, haround, hrest', hdone⟩ := ih (fun x hx => by rw [htags x hx, ← append_cons])
      (fun i hi => hrun i (mem_cons_of_mem id hi)) hmarks (hbody.trans (append_nil run).symm)
    obtain rfl := hrest'.eq_done hdone
    rw [isEmpty_eq_false_iff.2 (concat_ne_nil _ _)] at haround
    rw [append_done]
    exact ⟨(b, e) :: ms, rest, rfl, .cons hends hid haround, hrest, hafter⟩

namespace Kernel.Grouped

variable {k : Kernel} {body : π → List Expr} {tags : π → List LoopId} {gs : List π}
  (h : k.Grouped body tags gs)

include h

/-- Marked code of groups is each group in its own loops. -/
theorem assembled (hne : ∀ g ∈ gs, body g ≠ [])
    (hinserted : ∀ g ∈ gs, ∀ id ∈ LoopId.loops (tags g), id ∈ inserted)
    (hreal : ∀ id ∈ inserted, id.isSentinel = false) {qs : List π} (hqs : ∀ g ∈ qs, g ∈ gs)
    (hc : c.Marks k inserted []) (hops : c.ops = qs.flatMap body) : Markers.Assembled k body tags qs c := by
  induction qs generalizing c with
  | nil =>
    rw [hc.eq_done hops]
    exact .nil
  | cons g qs ih =>
    have hg := hqs g mem_cons_self
    have htags : ∀ x ∈ body g, x.loopIds.filter (inserted.contains ·) = LoopId.loops (tags g) := by
      intro x hx
      rw [h.tagged g hg x hx, LoopId.loops]
      refine filter_congr fun id hid => ?_
      cases hs : id.isSentinel with
      | true =>
        refine Bool.eq_false_iff.2 fun hmem => ?_
        rw [hreal id (contains_iff_mem.1 hmem)] at hs
        cases hs
      | false => exact contains_iff_mem.2 (hinserted g hg id (LoopId.mem_loops.2 ⟨hid, hs⟩))
    obtain ⟨ms, rest, rfl, haround, hrest, hrestOps⟩ := hc.exists_around h.properlyNested.adjacent (hne g hg) htags
      (fun id hid => h.filter_inLoop hg hid) hops
    exact .cons haround (ih (fun g' hg' => hqs g' (mem_cons_of_mem g hg')) hrest hrestOps)

/-- The loops of groups can be materialized, and each group gets its own. -/
theorem mark (hne : ∀ g ∈ gs, body g ≠ []) (hplain : ∀ g ∈ gs, ∀ x ∈ body g, x.kind.isMarker = false)
    (hvisited : ∀ g ∈ gs, LoopId.loops (tags g) ≠ [] → ∃ x ∈ body g, Markers.visited x = true)
    (hinsert : ∀ g ∈ gs, ∀ id ∈ LoopId.loops (tags g), Markers.Insertable k id) :
    ∃ changed m inserted c, Markers.run k = .ok changed m ∧ Markers.Marked k m inserted c ∧
      Markers.Assembled k body tags gs c := by
  have hunmarked : k.Unmarked := by
    refine ⟨h.lists.sequence ▸ h.lists, fun x hx => ?_⟩
    obtain ⟨g, hg, hx⟩ := h.mem hx
    exact hplain g hg x hx
  rcases Markers.run_cases hunmarked h.properlyNested.wellNested with
    ⟨changed, m, inserted, c, hrun, hm, hall⟩ | ⟨⟨x, hx, id, hid, hnot⟩, -⟩
  · refine ⟨changed, m, inserted, c, hrun, hm, h.assembled hne ?_ hm.real (fun _ hg => hg) hm.marks
      (hm.ops.trans h.lists.sequence)⟩
    intro g hg id hid
    obtain ⟨x, hx, hvisit⟩ := hvisited g hg (ne_nil_of_mem hid)
    exact hall x (h.mem_sequence hg hx) hvisit id (h.tagged g hg x hx ▸ hid)
  · obtain ⟨g, hg, hxg⟩ := h.mem hx
    rw [h.tagged g hg x hxg] at hid
    exact absurd (hinsert g hg id hid) hnot

end Kernel.Grouped

end KernelLoops
