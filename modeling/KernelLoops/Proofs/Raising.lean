import KernelLoops.Proofs.TowerPainting
import KernelLoops.Proofs.Pieces

set_option autoImplicit false

/-! # Pieces raised to towers

A piece whose loops all move the same operands becomes a tower once its loops are materialized, and
the tower is lowered with the kernel around it (`Piece.Raised`). Such a tower can be run, paints
what the piece carries, and holds no memory access wider than the innermost dimension. -/

namespace KernelLoops

open List

variable {c : Code} {x : Expr} {L : Layout} {sizes : List Amount} {s : Shift × Expr} {t : Tensor}
  {T : TensorId}

/-! ## The operands of a piece -/

/-- Every operand holds numbers of single precision. -/
def Expr.Float (x : Expr) : Prop := ∀ t ∈ x.inputs ++ x.outputs, t.elementType = .float32

namespace Piece

/-- The loops of a piece move the same operands, by steps that depend on the dimensions inside. -/
def Moves (p : Piece) (k : Kernel) (operands : List Tensor) (steps : List Amount → List Amount) :
    Prop :=
  ∀ outer size inner, p.sizes = outer ++ size :: inner → ∀ id around,
    ∃ l, Markers.loopParams k id (p.loop size inner) around = .ok (l, operands) ∧ l.ptrIncrements = steps inner

/-- The piece is a body that loops over known sizes can run: its accesses handle as many elements as
    a step of the innermost loop, and what the loops move is read behind the piece or is not made by
    it. -/
structure Sound (p : Piece) (k : Kernel) (operands : List Tensor) (steps : List Amount → List Amount)
    (read : List TensorId) : Prop where
  sits : p.Sits k
  kinds : ∀ x ∈ p.body, x.kind = .load ∨ x.kind = .broadcastLoad ∨ x.kind = .elementwise ∨ x.kind = .store
  plain : ∀ x ∈ p.body, x.fills = []
  single : ∀ x ∈ p.body, x.kind = .broadcastLoad → x.count = 1
  accesses : ∃ x ∈ p.body, x.kind = .load ∨ x.kind = .store
  float : ∀ x ∈ p.body, x.Float
  levels : p.sizes ≠ []
  sizes : ∀ d ∈ p.sizes, 0 < d ∧ d.isDynamic = false
  step : 0 < p.inc ∧ p.inc.isDynamic = false
  ports : p.entries ++ p.exits ≠ []
  few : (p.entries ++ p.exits).length ≤ 2 ^ 45
  moves : p.Moves k operands steps
  kept : ∀ t ∈ operands, t.id ∈ read ∨ ∀ x ∈ p.body, ∀ u ∈ x.outputs, u.id ≠ t.id
  types : ∀ x ∈ p.body, ∀ t, t ∈ x.inputs ∨ t ∈ x.outputs → ∀ y ∈ p.body, ∀ u ∈ y.outputs, u.id = t.id →
    u.toTensorType = t.toTensorType
  counted : Counted p.inc.trips p.body
  broad : p.inc ≠ 1 → Broad p.body

end Piece

/-- How far each tensor moves per unit of work of each loop. -/
def ratesOver (operands : List Tensor) (steps : List Amount → List Amount) : List Amount → List Shift
  | [] => []
  | _ :: sizes => (fun T => shift T operands (steps sizes)) :: ratesOver operands steps sizes

/-! ## The markers of a piece -/

namespace Piece

variable {p : Piece} {k : Kernel} {operands : List Tensor} {steps : List Amount → List Amount}
  {read : List TensorId}

theorem Sound.static (h : p.Sound k operands steps read) {size : Amount} (hsize : size ∈ p.sizes)
    (inner : List Amount) :
    (p.loop size inner).Static := by
  obtain ⟨hpos, hknown⟩ := h.sizes size hsize
  refine ⟨Int64.le_of_lt hpos, hknown, ?_, ?_, Nat.lt_of_le_of_lt h.few (by decide)⟩
  · show 0 < if inner = [] then p.inc else 1
    split
    · exact h.step.1
    · decide
  · show (if inner = [] then p.inc else 1).isDynamic = false
    split
    · exact h.step.2
    · decide

theorem Sound.insertable (h : p.Sound k operands steps read) {id : LoopId}
    (hid : id ∈ LoopId.loops p.tags) :
    Markers.Insertable k id := by
  obtain ⟨outer, size, inner, hsizes, hinfo⟩ := h.sits.registered.mem hid
  refine ⟨_, hinfo, h.ports, fun around => ?_⟩
  obtain ⟨l, hparams, -⟩ := h.moves outer size inner hsizes id around
  exact ⟨l, operands, hparams⟩

/-- The operands have names of the kernel. -/
theorem Sound.known (h : p.Sound k operands steps read) (hk : k.Lists k.sequence)
    (hsub : ∀ x ∈ p.body, x ∈ k.sequence) (ht : t ∈ operands) : t.id < k.nextTensor := by
  obtain ⟨size, inner, hsizes⟩ := exists_cons_of_ne_nil h.levels
  obtain ⟨l, hparams, -⟩ := h.moves [] size inner hsizes 0 false
  obtain ⟨q, hq, hat⟩ := Markers.mem_operands hparams ht
  obtain ⟨x, hx, hid⟩ := h.sits.boundary q hq
  have hmem := Markers.of_tensorAt_ok hat
  rw [← hid, hk.read x (hsub x hx)] at hmem
  exact hk.known x (hsub x hx) t hmem

/-- The marker closes a loop that moves the operands of a piece. -/
structure Ends (operands : List Tensor) (e : Expr) (l : LoopParams) : Prop where
  whole : e.Whole l
  inputs : e.inputs.take l.ptrIncrements.length = operands
  count : l.numOperands.trips = operands.length

/-- The markers of a piece are a tower. -/
theorem MarkedBy.tower {outer : Bool} {ids : List LoopId} {ms : List (Expr × Expr)}
    (h : p.MarkedBy k outer sizes ids ms) (hp : p.Sound k operands steps read) (above : List Amount)
    (hsizes : p.sizes = above ++ sizes) :
    Tower p.inc outer sizes (ratesOver operands steps sizes) ms ∧
      ∀ pr ∈ ms, ∀ l, pr.2.loop = some l → Ends operands pr.2 l := by
  induction h generalizing above with
  | nil outer => exact ⟨.nil outer, fun _ hpr => (nomatch hpr)⟩
  | @cons outer size sizes id ids b e l ms ends named info inside ih =>
    obtain ⟨htower, hends⟩ := ih (above ++ [size]) (by rw [hsizes, append_cons])
    have hmem : size ∈ p.sizes := by rw [hsizes]; simp
    rw [← named] at info
    have hwhole := ends.whole fun i hi => by
      rw [Option.mem_def, info] at hi
      exact Option.some.inj hi ▸ hp.static hmem sizes
    obtain ⟨hloop, info', operands', tie, hget, hparams, hinputs⟩ := ends
    obtain rfl := Option.some.inj (info.symm.trans hget)
    obtain ⟨l', hparams', hsteps⟩ := hp.moves above size sizes hsizes l.id outer
    obtain ⟨rfl, rfl⟩ := Prod.mk.inj (Except.ok.inj (hparams'.symm.trans hparams))
    obtain ⟨entries, steps', _, -, hptr, hoperands, hl⟩ := Markers.of_loopParams_ok hparams
    have hlength : l'.ptrIncrements.length = operands.length := by
      have hsteps' : l'.ptrIncrements = steps' := by rw [hl]
      rw [hsteps', Markers.length_ptrIncrements hptr]
      exact (forall₂_of_mapM_ok hoperands).length_eq
    have htake : e.inputs.take l'.ptrIncrements.length = operands := by
      rw [hinputs, hlength, take_left]
    have hwork : l'.workAmount = size := by rw [hl]; rfl
    have hreturns : l'.Returns := by
      rw [LoopParams.Returns, hl]
      have hknown : (p.loop size sizes).workAmount.isDynamic = false := (hp.sizes size hmem).2
      simp [Markers.finalOffsets, hknown]
    refine ⟨.cons ⟨hwhole, hreturns, ?_⟩ hwork (by rw [hl]; rfl) (by rw [hl]) htower, fun pr hpr l hl => ?_⟩
    · funext T
      show shift T e.inputs l'.ptrIncrements = _
      rw [shift_take, htake, hsteps]
    · rcases mem_cons.1 hpr with rfl | hpr
      · obtain rfl := Option.some.inj (hloop.symm.trans hl)
        exact ⟨hwhole, htake, by rw [← hwhole.closes.steps, hlength]⟩
      · exact hends pr hpr l hl

end Piece

/-! ## What a tail holds -/

theorem Expr.Float.rename (h : x.Float) {table : List (TensorId × Tensor)}
    (htable : ∀ t, t ∈ x.inputs ∨ t ∈ x.outputs → ∀ u, table.lookup t.id = some u → u.toTensorType = t.toTensorType) :
    (x.rename table).Float := by
  have hname : ∀ t ∈ x.inputs ++ x.outputs, (RangeCopy.rename table t).elementType = .float32 := by
    intro t ht
    rw [RangeCopy.rename]
    cases hlook : table.lookup t.id with
    | none => exact h t ht
    | some u =>
      exact (congrArg TensorType.elementType (htable t (mem_append.1 ht) u hlook)).trans (h t ht)
  intro t ht
  rcases mem_append.1 ht with ht | ht
  · obtain ⟨u, hu, rfl⟩ := mem_map.1 ht
    exact hname u (mem_append_left _ hu)
  · obtain ⟨u, hu, rfl⟩ := mem_map.1 ht
    exact hname u (mem_append_right _ hu)

/-! ## Raised pieces -/

/-- The tower of a piece of `k` in the lowered code of the marked kernel `m`: what is read behind it
    is in `out`. -/
structure Piece.Raised (p : Piece) (k m : Kernel) (operands : List Tensor)
    (steps : List Amount → List Amount)
    (ms : List (Expr × Expr)) (tail : List Expr) (out : List TensorId) (n : TensorId) (c : Code) : Prop where
  ends : ∀ pr ∈ ms, ∀ l, pr.2.loop = some l → Ends operands pr.2 l
  markers : ∀ pr ∈ ms, pr.1.kind.isMarker = true ∧ pr.2.kind.isMarker = true
  ties : ∀ pr ∈ ms, ∀ t ∈ pr.1.outputs ++ pr.2.outputs, k.nextTensor ≤ t.id
  lowers : LowersTo p.inc m p.body tail false p.sizes (ratesOver operands steps p.sizes) ms out n c
  next : k.nextTensor ≤ n

theorem Journey.mem_stops_pow {J : Journey} {n : Nat} (h : s ∈ (J ^ n).stops) :
    ∃ d, (d, s.2) ∈ J.stops := by
  induction n generalizing s with
  | zero => cases h
  | succ n ih =>
    rw [pow_succ, mul_stops] at h
    rcases mem_append.1 h with h | h
    · exact ih h
    · obtain ⟨s', hs', rfl⟩ := mem_map.1 h
      exact ⟨s'.1, hs'⟩

/-- What a journey runs is in the code. -/
theorem Code.mem_flatten_of_stop (h : s ∈ c.journey.stops) : s.2 ∈ c.flatten := by
  induction c generalizing s with
  | done => cases h
  | op x rest ih =>
    rcases mem_append.1 h with h | h
    · rw [mem_singleton.1 h]
      exact mem_cons_self
    · obtain ⟨s', hs', rfl⟩ := mem_map.1 h
      exact mem_cons_of_mem x (ih (s := s') hs')
  | loop b e body rest ihbody ihrest =>
    simp only [flatten, mem_cons, mem_append]
    rcases mem_append.1 h with h | h
    · cases hl : e.loop with
      | none =>
        rw [hl] at h
        cases h
      | some l =>
        rw [hl] at h
        have hbody : ∃ d, (d, s.2) ∈ body.journey.stops := by
          rcases mem_append.1 h with h | h
          · split at h
            · exact ⟨s.1, h⟩
            · obtain ⟨d, hd⟩ := Journey.mem_stops_pow h
              rw [Journey.mul_stops, Journey.move_stops, Journey.moved_nil, append_nil] at hd
              exact ⟨d, hd⟩
          · cases h
        obtain ⟨d, hd⟩ := hbody
        exact .inr (.inl (ihbody (s := (d, s.2)) hd))
    · obtain ⟨s', hs', rfl⟩ := mem_map.1 h
      exact .inr (.inr (.inr (ihrest (s := s') hs')))

theorem Code.mem_outputs_wrap {ms : List (Expr × Expr)} (ht : t ∈ (wrap ms c).outputs) :
    (∃ pr ∈ ms, t ∈ pr.1.outputs ++ pr.2.outputs) ∨ t ∈ c.outputs := by
  induction ms with
  | nil => exact .inr ht
  | cons pr ms ih =>
    have hflat : (wrap (pr :: ms) c).outputs = pr.1.outputs ++ ((wrap ms c).outputs ++ pr.2.outputs) := by
      simp [outputs, wrap, flatten]
    rw [hflat, mem_append, mem_append] at ht
    rcases ht with ht | ht | ht
    · exact .inl ⟨pr, mem_cons_self, mem_append_left _ ht⟩
    · rcases ih ht with ⟨pr', hpr', h⟩ | h
      · exact .inl ⟨pr', mem_cons_of_mem pr hpr', h⟩
      · exact .inr h
    · exact .inl ⟨pr, mem_cons_self, mem_append_right _ ht⟩

theorem Code.outputs_ofOps (xs : List Expr) : (ofOps xs done).outputs = xs.flatMap Expr.outputs := by
  rw [outputs]
  congr 1
  induction xs with
  | nil => rfl
  | cons x xs ih => exact congrArg (x :: ·) ih

namespace Piece.Raised

variable {p : Piece} {k m : Kernel} {operands : List Tensor} {steps : List Amount → List Amount}
  {read : List TensorId}
  {ms : List (Expr × Expr)} {tail : List Expr} {out : List TensorId} {n : TensorId}

/-- What is made in a tower is made by the piece, or ties markers. -/
theorem made (hties : ∀ pr ∈ ms, ∀ t ∈ pr.1.outputs ++ pr.2.outputs, k.nextTensor ≤ t.id)
    (ht : t ∈ (Code.wrap ms (.ofOps p.body .done)).outputs) : k.nextTensor ≤ t.id ∨ ∃ x ∈ p.body, t ∈ x.outputs := by
  rcases Code.mem_outputs_wrap ht with ⟨pr, hpr, ht⟩ | ht
  · exact .inl (hties pr hpr t ht)
  · rw [Code.outputs_ofOps] at ht
    exact .inr (mem_flatMap.1 ht)

/-- What a tower moves keeps its name in the tail. -/
theorem kept (hp : p.Sound k operands steps read)
    (hends : ∀ pr ∈ ms, ∀ l, pr.2.loop = some l → Ends operands pr.2 l)
    (hties : ∀ pr ∈ ms, ∀ t ∈ pr.1.outputs ++ pr.2.outputs, k.nextTensor ≤ t.id) (hread : ∀ i ∈ read, i ∈ out)
    (hnames : ∀ t ∈ operands, t.id < k.nextTensor) :
    ∀ pr ∈ ms, ∀ l, pr.2.loop = some l → ∀ t ∈ pr.2.inputs.take l.ptrIncrements.length, t.id ∈ out ∨
      ∀ u ∈ (Code.wrap ms (.ofOps p.body .done)).outputs, u.id ≠ t.id := by
  intro pr hpr l hl t ht
  rw [(hends pr hpr l hl).inputs] at ht
  rcases hp.kept t ht with hin | hnot
  · exact .inl (hread _ hin)
  · refine .inr fun u hu => ?_
    rcases made hties hu with hle | ⟨x, hx, hux⟩
    · exact Nat.ne_of_gt (Nat.lt_of_lt_of_le (hnames t ht) hle)
    · exact hnot x hx u hux

variable (h : p.Raised k m operands steps ms tail out n c) (hp : p.Sound k operands steps read)

include h hp

/-- What a tower makes has the type of what its piece names alike. -/
theorem types (hbelow : Below k.nextTensor p.body) (hx : x ∈ p.body)
    (ht : t ∈ x.inputs ∨ t ∈ x.outputs) {u : Tensor}
    (hu : u ∈ (Code.wrap ms (.ofOps p.body .done)).outputs) (hid : u.id = t.id) : u.toTensorType = t.toTensorType := by
  rcases made h.ties hu with hle | ⟨y, hy, huy⟩
  · have hlt : t.id < k.nextTensor := by
      rcases ht with ht | ht
      · exact (hbelow x hx).1 t ht
      · exact (hbelow x hx).2 t ht
    exact absurd hid (Nat.ne_of_gt (Nat.lt_of_lt_of_le hlt hle))
  · exact hp.types x hx t ht y hy u huy hid

omit h in
/-- Loads and stores handle as many elements as a step. -/
theorem count_eq (hx : x ∈ p.body) (hkind : x.kind = .load ∨ x.kind = .store) : x.count = p.inc := by
  refine Int64.toInt_inj.1 ((hp.counted x hx hkind).trans ?_)
  exact Int.toNat_of_nonneg (Int.le_of_lt (Amount.lt_iff.1 hp.step.1))

omit h in
/-- In a tail, loads and stores handle the rest. -/
theorem count_resized (hx : x ∈ p.body) (hkind : x.kind = .load ∨ x.kind = .store)
    (hone : p.inc ≠ 1) (size : Amount)
    (table : List (TensorId × Tensor)) : ((x.rename table).resized size).count = size := by
  have hmem : (x.rename table).kind.isMemoryAccess = true := by
    show x.kind.isMemoryAccess = true
    rcases hkind with hk | hk <;> rw [hk] <;> rfl
  have hmany : (x.rename table).count > 1 := hp.broad hone x hx hkind
  rw [Expr.resized, hmem, Bool.true_and, if_pos (decide_eq_true hmany)]

/-- What a lowered piece holds: markers, and expressions that ask for no arguments and access no
    more elements at once than the innermost dimension has. -/
theorem mem_flatten (hbelow : Below k.nextTensor p.body) (hx : x ∈ c.flatten)
    (hmarker : x.kind.isMarker = false) :
    (x.kind ≠ .parameter ∧ x.kind ≠ .result ∧ x.kind ≠ .buffer) ∧ x.Float ∧
      (x.kind.isMemoryAccess = true → x.count = 1 ∨
        x.count ≤ p.inc ∧ x.count ≤ p.sizes.getLast hp.levels) := by
  have hpositive := fun d hd => (hp.sizes d hd).1
  have hlast := hpositive _ (getLast_mem hp.levels)
  have hinner : ∀ y ∈ p.body, (y.kind ≠ .parameter ∧ y.kind ≠ .result ∧ y.kind ≠ .buffer) ∧
      (y.kind.isMemoryAccess = true → y.kind = .load ∨ y.kind = .store ∨ y.kind = .broadcastLoad) := by
    intro y hy
    rcases hp.kinds y hy with hk | hk | hk | hk <;> rw [hk] <;> decide
  rcases h.lowers.mem_flatten hpositive h.markers hp.levels hx with hm | ⟨hx, hle⟩ | ⟨hx, hrest⟩
  · rw [hmarker] at hm
    cases hm
  · refine ⟨(hinner x hx).1, hp.float x hx, fun hmem => ?_⟩
    rcases or_assoc.2 ((hinner x hx).2 hmem) with hk | hk
    · rw [count_eq hp hx hk]
      exact .inr ⟨Int64.le_refl _, hle⟩
    · exact .inl (hp.single x hx hk)
  · -- the copy in the tail handles the rest of the innermost dimension
    obtain ⟨table, n', -, -, hnames, rfl⟩ := h.lowers.copied hp.plain hrest
    obtain ⟨hlower, hless, hupper⟩ := Amount.toInt_mod_bounds (Int64.le_of_lt hlast) hp.step.1
    have hone : p.inc ≠ 1 := fun hone => hrest (by rw [hone]; exact Int64.mod_one)
    obtain ⟨y, hy, rfl⟩ := mem_map.1 hx
    obtain ⟨z, hz, rfl⟩ := mem_map.1 hy
    have hfloat : (z.rename table).Float := (hp.float z hz).rename fun t ht u hu => by
      obtain ⟨t', ht', hid, htype⟩ := hnames t.id u hu
      exact htype.trans (h.types hp hbelow hz ht ht' hid)
    have hlarge : z.kind.isMemoryAccess = true →
        ((z.rename table).resized (p.sizes.getLast hp.levels % p.inc)).count = 1 ∨
        ((z.rename table).resized (p.sizes.getLast hp.levels % p.inc)).count ≤ p.inc ∧
          ((z.rename table).resized (p.sizes.getLast hp.levels % p.inc)).count ≤
            p.sizes.getLast hp.levels := by
      intro hmem
      rcases or_assoc.2 ((hinner z hz).2 hmem) with hk | hk
      · rw [count_resized hp hz hk hone]
        exact .inr ⟨Int64.le_of_lt (Amount.lt_iff.2 hless), Amount.le_iff.2 hupper⟩
      · have hsingle : (z.rename table).count = 1 := hp.single z hz hk
        refine .inl ?_
        rw [Expr.resized, hsingle, if_neg (by simp)]
        exact hsingle
    obtain ⟨count, hcount⟩ := (z.rename table).resized_eq (p.sizes.getLast hp.levels % p.inc)
    rw [hcount] at hlarge ⊢
    exact ⟨(hinner z hz).1, hfloat, hlarge⟩

/-- Some memory access of a tower handles as many elements as a run of it. -/
theorem exists_count {index : List Nat} {count : Nat} {last : Bool}
    (hspot : Spot p.inc p.sizes index count last) :
    ∃ x ∈ c.flatten, x.kind.isMemoryAccess = true ∧ x.count.toInt = count := by
  obtain ⟨x, hx, hkind⟩ := hp.accesses
  have hmem : x.kind.isMemoryAccess = true := by
    rcases hkind with hk | hk <;> rw [hk] <;> rfl
  obtain ⟨d, hjourney, -⟩ := h.lowers.journey
  have hstop : ∀ y ∈ (if last then tail else p.body), y ∈ c.flatten := by
    intro y hy
    refine Code.mem_flatten_of_stop (s := (along (ratesOver operands steps p.sizes) index, y)) ?_
    rw [hjourney]
    exact mem_flatMap.2 ⟨_, (mem_towerJobs_iff hp.step.1 p.body tail h.lowers.length_rates).2
      ⟨index, count, last, hspot, rfl⟩,
      mem_map_of_mem hy⟩
  obtain ⟨hwhole, hrest⟩ := hspot.count_eq hp.levels
  cases last with
  | false =>
    refine ⟨x, hstop x hx, hmem, ?_⟩
    rw [hwhole rfl]
    exact hp.counted x hx hkind
  | true =>
    obtain ⟨hcount, hodd⟩ := hrest rfl
    have hlast := (hp.sizes _ (getLast_mem hp.levels)).1
    have hone : p.inc ≠ 1 := fun hone => hodd (by rw [hone]; exact Int64.mod_one)
    have hnonneg := (Amount.toInt_mod_bounds (Int64.le_of_lt hlast) hp.step.1).1
    obtain ⟨table, n', -, -, -, rfl⟩ := h.lowers.copied hp.plain hodd
    refine ⟨_, hstop _ (mem_map_of_mem (mem_map_of_mem hx)), ?_, ?_⟩
    · obtain ⟨count', hcount'⟩ := (x.rename table).resized_eq (p.sizes.getLast hp.levels % p.inc)
      rw [hcount']
      exact hmem
    · rw [count_resized hp hx hkind hone, hcount, Amount.trips]
      exact (Int.toNat_of_nonneg hnonneg).symm

omit hp in
/-- A tower can be run where its operands can be found. -/
theorem turns (hfew : operands.length ≤ 2 ^ 45) (hknows : ∀ t ∈ operands, (L.home t.id).isSome) :
    c.Turns L := by
  refine h.lowers.turns fun pr hpr l hl => ?_
  obtain ⟨hwhole, hinputs, hcount⟩ := h.ends pr hpr l hl
  refine ⟨hwhole.closes, hwhole.step, ?_, fun t ht => ?_⟩
  · have hnonneg : 0 ≤ l.numOperands.toInt := Int.le_trans hwhole.entries hwhole.operands
    have hcount' : l.numOperands.toInt.toNat = operands.length := hcount
    rw [storage, hcount', decide_eq_false, Bool.false_or, if_neg]
    · exact congrArg Except.ok hcount.symm
    · rw [decide_eq_true_eq]
      omega
    · intro hneg
      have := Amount.lt_iff.1 hneg
      rw [Int64.toInt_zero] at this
      omega
  · rw [← hwhole.closes.steps, hinputs] at ht
    exact hknows t ht

/-- A tower paints what its piece carries, run by run. Names from `k.nextTensor` on are free, and
    what the piece makes and nothing reads behind it has no block. -/
theorem paints {α : Type} {A : Arithmetic α} {K : Canvas α} {q : Shift}
    (hcarries : ∀ index c tail, Spot p.inc p.sizes index c tail →
      Carries A L K (q + along (ratesOver operands steps p.sizes) index) c p.body ∧ c ≤ L.lanes)
    (hbelow : Below k.nextTensor p.body)
    (hmade : ∀ x ∈ p.body, ∀ t ∈ x.outputs, t.id ∉ out → L.home t.id = none)
    (hfresh : ∀ i, k.nextTensor ≤ i → L.home i = none) :
    Paints A L K q c.journey.stops fun b i => ∃ index c tail, Spot p.inc p.sizes index c tail ∧
      hits L (q + along (ratesOver operands steps p.sizes) index) c p.body b i := by
  refine h.lowers.paints_of_carries hp.step.1 (fun d hd => (hp.sizes d hd).1) hcarries hp.plain hp.counted
    (hbelow.mono h.next) hp.broad (fun t ht hout => ?_) fun i hi => hfresh i (Nat.le_trans h.next hi)
  rcases made h.ties ht with hle | ⟨x, hx, htx⟩
  · exact hfresh t.id hle
  · exact hmade x hx t htx hout

end Piece.Raised

end KernelLoops
