import KernelLoops.Proofs.NestCoverage

set_option autoImplicit false

/-! # Kernels in pieces

A kernel whose sequence falls into pieces: the expressions of a piece lie in the same loops, one
inside the other, and the loops of different pieces are different. Materializing the loops of such a
kernel wraps each piece in its own (`Kernel.Pieces.mark`). -/

namespace KernelLoops

open List

variable {k : Kernel} {sizes : List Amount} {ids : List LoopId}

/-- Expressions in a row that lie in the same loops, one inside the other. -/
structure Piece where
  body : List Expr
  /-- The tags of each of the expressions. -/
  tags : List LoopId
  /-- The work of each loop, outermost first. -/
  sizes : List Amount
  /-- The increment of the innermost loop; the others go one by one. -/
  inc : Amount
  entries : List Port
  exits : List Port

namespace Piece

/-- The loop of a piece over one dimension, around the loops over others. -/
def loop (p : Piece) (size : Amount) (sizes : List Amount) : LoopInfo :=
  { workAmount := size
    increment := if sizes = [] then p.inc else 1
    entries := p.entries
    exits := p.exits
    dim := Int64.ofNat sizes.length }

/-- The loops of a piece over some dimensions are registered, each once. -/
inductive Registered (p : Piece) (loops : LoopTable) : List Amount → List LoopId → Prop
  | nil : Registered p loops [] []
  | cons {size : Amount} {sizes : List Amount} {id : LoopId} {ids : List LoopId} (real : id.isSentinel = false)
      (info : loops.get? id = some (p.loop size sizes)) (once : id ∉ ids) (inside : Registered p loops sizes ids) :
      Registered p loops (size :: sizes) (id :: ids)

/-- The piece lies in the kernel with its loops. -/
structure Sits (p : Piece) (k : Kernel) : Prop where
  nonempty : p.body ≠ []
  tagged : ∀ x ∈ p.body, x.loopIds = p.tags
  kinds : ∀ x ∈ p.body, x.kind.isBuilt = true
  source : ∀ x ∈ p.body, x.kind = .load ∨ x.kind = .broadcastLoad → x.inputs ≠ []
  target : ∀ x ∈ p.body, x.kind = .store ∨ x.kind = .brgemm → x.outputs ≠ []
  adjacent : Contiguous (fun id => !id.isSentinel) p.tags
  registered : p.Registered k.loops p.sizes (LoopId.loops p.tags)
  visited : LoopId.loops p.tags ≠ [] → ∃ x ∈ p.body, Markers.visited x = true
  boundary : ∀ q ∈ p.entries ++ p.exits, ∃ x ∈ p.body, x.id = q.expr

namespace Registered

variable {p : Piece} {loops : LoopTable}

theorem nodup (h : p.Registered loops sizes ids) : ids.Nodup := by
  induction h with
  | nil => exact nodup_nil
  | cons _ _ once _ ih => exact nodup_cons.2 ⟨once, ih⟩

theorem mem (h : p.Registered loops sizes ids) {id : LoopId} (hid : id ∈ ids) :
    ∃ outer size inner, sizes = outer ++ size :: inner ∧ loops.get? id = some (p.loop size inner) := by
  induction h with
  | nil => cases hid
  | @cons size sizes id' ids real info once inside ih =>
    rcases mem_cons.1 hid with rfl | hid
    · exact ⟨[], size, sizes, rfl, info⟩
    · obtain ⟨outer, size', inner, hsizes, hinfo⟩ := ih hid
      exact ⟨size :: outer, size', inner, by rw [hsizes]; rfl, hinfo⟩

theorem length_eq (h : p.Registered loops sizes ids) : ids.length = sizes.length := by
  induction h with
  | nil => rfl
  | cons _ _ _ _ ih => rw [length_cons, length_cons, ih]

end Registered

/-- A piece over no dimension lies in no loop. -/
theorem Sits.loops_eq_nil {p : Piece} (h : p.Sits k) (hsizes : p.sizes = []) :
    LoopId.loops p.tags = [] := by
  refine length_eq_zero_iff.1 (h.registered.length_eq.trans ?_)
  rw [hsizes]
  rfl

end Piece

/-- The sequence of the kernel falls into pieces. -/
structure Kernel.Pieces (k : Kernel) (ps : List Piece) : Prop where
  lists : k.Lists (ps.flatMap Piece.body)
  sits : ∀ p ∈ ps, p.Sits k
  apart : ps.Pairwise fun p p' => ∀ id ∈ LoopId.loops p.tags, id ∉ p'.tags
  loops : k.loops.Plain

namespace Kernel.Pieces

variable {ps : List Piece} (h : k.Pieces ps)

include h

theorem grouped : k.Grouped Piece.body Piece.tags ps where
  lists := h.lists
  tagged p hp := (h.sits p hp).tagged
  once p hp := (h.sits p hp).registered.nodup
  adjacent p hp := (h.sits p hp).adjacent
  apart := h.apart
  boundary p hp id hid info hinfo q hq := by
    obtain ⟨_, _, _, -, hget⟩ := (h.sits p hp).registered.mem hid
    obtain rfl := Option.some.inj (hget.symm.trans hinfo)
    exact (h.sits p hp).boundary q hq
  numbered := h.loops.toNumbered

theorem plain : k.Plain := by
  refine .of_lists h.lists (fun x hx => ?_) h.loops
  obtain ⟨p, hp, hx⟩ := mem_flatMap.1 hx
  have hsits := h.sits p hp
  refine ⟨hsits.kinds x hx, hsits.source x hx, hsits.target x hx, fun id hid hreal => ?_⟩
  rw [hsits.tagged x hx] at hid
  obtain ⟨-, _, _, -, hinfo⟩ := hsits.registered.mem (LoopId.mem_loops.2 ⟨hid, hreal⟩)
  rw [hinfo]
  rfl

/-- The loops of a kernel are those of its pieces. -/
theorem static (hstatic : ∀ p ∈ ps, ∀ size ∈ p.sizes, ∀ inner, (p.loop size inner).Static) :
    k.Static := by
  intro x hx id hid info hinfo
  obtain ⟨p, hp, -, hmem⟩ := h.grouped.exists_of_get? hx hid hinfo
  obtain ⟨outer, size, inner, hsizes, hget⟩ := (h.sits p hp).registered.mem hmem
  obtain rfl := Option.some.inj (hget.symm.trans hinfo)
  exact hstatic p hp size (by rw [hsizes]; simp) inner

end Kernel.Pieces

/-! ## The code of a marked kernel -/

/-- The markers of the loops of a piece, from one loop inward. `outer` tells whether another loop is
    around them. -/
inductive Piece.MarkedBy (p : Piece) (k : Kernel) : Bool → List Amount → List LoopId →
    List (Expr × Expr) → Prop
  | nil (outer : Bool) : MarkedBy p k outer [] [] []
  | cons {outer : Bool} {size : Amount} {sizes : List Amount} {id : LoopId} {ids : List LoopId} {b e : Expr}
      {l : LoopParams} {ms : List (Expr × Expr)} (ends : e.Ends k l outer) (named : l.id = id)
      (info : k.loops.get? id = some (p.loop size sizes)) (inside : MarkedBy p k true sizes ids ms) :
      MarkedBy p k outer (size :: sizes) (id :: ids) ((b, e) :: ms)

/-- The code of pieces one after the other, each wrapped in its loops. -/
inductive Assembles (k : Kernel) : List Piece → Code → Prop
  | nil : Assembles k [] .done
  | cons {p : Piece} {ps : List Piece} {ms : List (Expr × Expr)} {rest : Code}
      (marked : p.MarkedBy k false p.sizes (LoopId.loops p.tags) ms) (others : Assembles k ps rest) :
      Assembles k (p :: ps) ((Code.wrap ms (.ofOps p.body .done)).append rest)

theorem Markers.Around.markedBy {p : Piece} {outer : Bool} {ms : List (Expr × Expr)}
    (h : Around k outer ids ms)
    (hreg : p.Registered k.loops sizes ids) : p.MarkedBy k outer sizes ids ms := by
  induction hreg generalizing outer ms with
  | nil =>
    cases h
    exact .nil outer
  | cons real info once _ ih =>
    cases h with
    | cons ends named inside => exact .cons ends named info (ih inside)

theorem Markers.Assembled.assembles {ps : List Piece} {c : Code}
    (h : Assembled k Piece.body Piece.tags ps c)
    (hreg : ∀ p ∈ ps, p.Registered k.loops p.sizes (LoopId.loops p.tags)) : Assembles k ps c := by
  induction h with
  | nil => exact .nil
  | cons around _ ih =>
    exact .cons (around.markedBy (hreg _ mem_cons_self)) (ih fun p hp => hreg p (mem_cons_of_mem _ hp))

/-- The loops of pieces can be materialized, and each piece gets its own. -/
theorem Kernel.Pieces.mark {ps : List Piece} (h : k.Pieces ps)
    (hinsert : ∀ p ∈ ps, ∀ id ∈ LoopId.loops p.tags, Markers.Insertable k id) :
    ∃ changed m inserted c, Markers.run k = .ok changed m ∧ Markers.Marked k m inserted c ∧ Assembles k ps c := by
  obtain ⟨changed, m, inserted, c, hrun, hm, hassembled⟩ := h.grouped.mark (fun p hp => (h.sits p hp).nonempty)
    (fun p hp x hx => (h.plain.exprs x (h.grouped.mem_sequence hp hx)).marker)
    (fun p hp => (h.sits p hp).visited) hinsert
  exact ⟨changed, m, inserted, c, hrun, hm, hassembled.assembles fun p hp => (h.sits p hp).registered⟩

/-! ## Pieces from the builder -/

namespace LoopId

variable (h : ∀ id ∈ ids, id.isSentinel = false) (n : Nat)

include h

/-- Levels in no loop around those in loops. -/
theorem loops_replicate_append : loops (replicate n null ++ ids) = ids := by
  rw [loops_append, loops_replicate_null]
  exact filter_eq_self.2 fun id hid => by rw [h id hid]; rfl

theorem contiguous_replicate_append :
    Contiguous (fun id => !id.isSentinel) (replicate n null ++ ids) := by
  have hfront : (replicate n null ++ ids).dropWhile (fun id => !!id.isSentinel) =
    ids.dropWhile fun id => !!id.isSentinel :=
    dropWhile_append_of_pos fun id hid => by
      rw [eq_of_mem_replicate hid]
      rfl
  have hback : (ids.dropWhile fun id => !!id.isSentinel).dropWhile (fun id => !id.isSentinel) = [] :=
    dropWhile_eq_nil_iff.2 fun id hid => by
      rw [h id ((dropWhile_sublist _).mem hid)]
      rfl
  intro id hid
  rw [hfront, hback] at hid
  cases hid

end LoopId

/-- Loops that the builder registers over the dimensions of a piece. -/
theorem Registered.piece {p : Piece} {loops : LoopTable} {depth : Amount} {level : Nat}
    (h : KernelLoops.Registered loops depth p.inc p.entries p.exits level sizes ids)
    (hdepth : depth = Int64.ofNat (level + sizes.length)) : p.Registered loops sizes ids := by
  induction h with
  | nil => exact .nil
  | @cons level size sizes id ids info once _ ih =>
    have hdim : depth - 1 - Int64.ofNat level = Int64.ofNat sizes.length := by
      rw [hdepth, length_cons, Int64.ofNat_add, Int64.ofNat_add]
      grind
    refine .cons ?_ ?_ once (ih ?_)
    · rw [LoopId.isSentinel, decide_eq_false_iff_not]
      exact Int.not_lt.2 (Int.natCast_nonneg id)
    · rw [info, levelLoop, hdim]
      rfl
    · rw [hdepth, length_cons]
      congr 1
      omega

namespace Piece

theorem Registered.real {p : Piece} {loops : LoopTable} (h : p.Registered loops sizes ids) :
    ∀ id ∈ ids, id.isSentinel = false := by
  induction h with
  | nil => exact fun _ hid => (nomatch hid)
  | cons real _ _ _ ih => exact forall_mem_cons.2 ⟨real, ih⟩

/-- Expressions that lie in no loop at any of `d` levels. -/
def outside (xs : List Expr) (d : Nat) : Piece where
  body := xs
  tags := replicate d LoopId.null
  sizes := []
  inc := 1
  entries := []
  exits := []

theorem loops_outside (xs : List Expr) (d : Nat) : LoopId.loops (outside xs d).tags = [] :=
  LoopId.loops_replicate_null d

theorem sits_outside {xs : List Expr} {d : Nat} (hne : xs ≠ [])
    (hkind : ∀ x ∈ xs, x.kind = .parameter ∨ x.kind = .result)
    (htags : ∀ x ∈ xs, x.loopIds = replicate d LoopId.null) : (outside xs d).Sits k where
  nonempty := hne
  tagged := htags
  kinds x hx := by rcases hkind x hx with h | h <;> rw [h] <;> rfl
  source x hx h := by rcases hkind x hx with h' | h' <;> rcases h with h | h <;> cases h'.symm.trans h
  target x hx h := by rcases hkind x hx with h' | h' <;> rcases h with h | h <;> cases h'.symm.trans h
  adjacent := by
    have h := LoopId.contiguous_replicate_append (forall_mem_nil fun id : LoopId => id.isSentinel = false) d
    rwa [append_nil] at h
  registered := by
    rw [loops_outside]
    exact .nil
  visited h := absurd (loops_outside xs d) h
  boundary _ hq := nomatch hq

end Piece

end KernelLoops
