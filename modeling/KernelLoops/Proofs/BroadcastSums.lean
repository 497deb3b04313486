import KernelLoops.Proofs.BroadcastNests

set_option autoImplicit false

/-! # What broadcast nests compute

Lowered under any configuration and run, a kernel that adds two tensors leaves at every index the
sum of the elements there, the second tensor being read at its first element in each dimension where
it has a single one (`Build.broadcastNest_adds`). -/

namespace KernelLoops

open List

variable {α : Type}

/-! ## Indices of the smaller tensor -/

namespace Broadcasts

variable {shape small : List Amount} {index : List Nat} (h : Broadcasts shape small)

include h

theorem within_clamp (hindex : Within shape index) : Within small (clamp small index) := by
  induction h generalizing index with
  | nil =>
    cases hindex
    exact .nil
  | @cons size own shape small hown _ ih =>
    cases hindex with
    | @cons _ i _ is hi hrest =>
      refine .cons ?_ (ih hrest)
      rcases hown with rfl | rfl
      · show (if own = 1 then 0 else i) < own.trips
        rwa [clamp_index hi]
      · exact Nat.one_pos

/-- Further on in the last dimension a tensor of the same innermost size moves along, and any other
    stands still. -/
theorem clamp_bump {j : Nat} (hne : shape ≠ []) (hindex : Within shape (bump j index)) :
    clamp small (bump j index) =
      if shape.getLast? = small.getLast? then bump j (clamp small index) else clamp small index := by
  induction h generalizing index with
  | nil => exact absurd rfl hne
  | @cons size own shape small hown hrest ih =>
    cases hrest with
    | nil =>
      rcases index with - | ⟨i, - | ⟨i', is⟩⟩
      · cases hindex
      · obtain ⟨hi, -⟩ := forall₂_cons.1 hindex
        have hclamp : ∀ n, clamp [own] [n] = [if own = 1 then 0 else n] := fun _ => rfl
        rw [bump, hclamp, hclamp, bump, getLast?_singleton, getLast?_singleton]
        by_cases hsame : size = own
        · subst hsame
          rw [if_pos rfl, clamp_index hi, clamp_index (Nat.lt_of_le_of_lt (Nat.le_add_right i j) hi)]
        · rw [if_neg fun heq => hsame (Option.some.inj heq), if_pos (hown.resolve_left fun heq => hsame heq.symm),
            if_pos (hown.resolve_left fun heq => hsame heq.symm)]
      · cases hindex with
        | cons _ hrest => cases is <;> cases hrest
    | @cons size' own' shape small hown' hrest =>
      rcases index with - | ⟨i, - | ⟨i', is⟩⟩
      · cases hindex
      · cases hindex with
        | cons _ hrest => cases hrest
      · obtain ⟨-, hindex⟩ := forall₂_cons.1 hindex
        have hinner := ih (cons_ne_nil _ _) hindex
        rw [bump, clamp_cons, hinner, getLast?_cons_cons, getLast?_cons_cons, clamp_cons own]
        by_cases hlast : (size' :: shape).getLast? = (own' :: small).getLast?
        · rw [if_pos hlast, if_pos hlast]
          rfl
        · rw [if_neg hlast, if_neg hlast]

end Broadcasts

/-! ## Carrying sums -/

/-- The blocks of the two inputs and of the output. -/
def sumArgs : List (TensorId × Nat) := [(0, 1), (1, 2), (5, 3)]

/-- The sums of the elements of two arrays, one for each element of a shape. -/
def sumCanvas (A : Arithmetic α) (shape small : List Amount) (a b out : Array α) : Canvas α where
  want _ e := A.add (a.getD e A.zero) (b.getD (offset small (clamp small (indexAt shape e))) A.zero)
  source := .ofMemory A (Machine.memory [a, b] [out])
  target blk := blk = 3

/-- The lanes of the tensors of a sum in the run at an index. -/
def sumLanes (A : Arithmetic α) (shape small : List Amount) (a b : Array α) (index : List Nat)
    (T : TensorId) (j : Nat) : α :=
  let u := a.getD (offset shape index + j) A.zero
  let v := b.getD (offset small (clamp small (bump j index))) A.zero
  if T = 0 ∨ T = 2 then u else if T = 1 ∨ T = 3 then v else A.add u v

section Carrying

variable {A : Arithmetic α} {shape small : List Amount} {inc : Amount} {a b out : Array α}
  {lanes : Nat}
  {p p' x y z w : Expr} {index : List Nat} {c : Nat} {tail : Bool}

/-- Where a tensor that follows the loops opens in the run at an index. -/
theorem opens_of_follows {T : Tensor} {own : List Amount} {rs : List Shift} {L : Layout}
    {blk n : Nat}
    (hfollows : Follows T.id shape own rs) (hindex : Within shape index) (hhome : L.home T.id = some blk)
    (hroom : L.room blk = volume own) (hvolume : volume own < 2 ^ 62)
    (hfits : offset own (clamp own index) + n ≤ volume own) :
    L.Opens (along rs index) T.id blk (offset own (clamp own index)) n where
  home := hhome
  start := by
    rw [hfollows.along_eq hindex]
    exact Int64.toInt_ofNat_of_lt (by omega)
  fits := hroom ▸ hfits
  small := by omega

/-- One run of the body of a sum adds the elements that it handles. -/
theorem Sums.carries (h : Sums shape small inc p p' x y z w) (hne : shape ≠ [])
    (hshape : ∀ d ∈ shape, 0 < d)
    (hvolume : volume shape < 2 ^ 62) (hsmall : Broadcasts shape small) (hinc : 0 < inc) (ha : a.size = volume shape)
    (hb : b.size = volume small) (hout : out.size = volume shape) (hspot : Spot inc shape index c tail) :
    Carries A (interfaceLayout sumArgs [a, b] [out] lanes) (sumCanvas A shape small a b out)
      (along (ratesOver (sumOperands shape small) (sumSteps shape small) shape) index) c [x, y, z, w] := by
  have hnonneg : ∀ d ∈ shape, 0 ≤ d := fun d hd => Int64.le_of_lt (hshape d hd)
  have hindex := hspot.within hinc hnonneg
  have hpos := hspot.pos hinc hnonneg
  have hbump : ∀ j < c, Within shape (bump j index) := fun j hj => hspot.within_bump hinc hnonneg hj
  have hlength := hspot.length_eq
  obtain ⟨hleft, hright, hdst⟩ := follows_sum hsmall [] [] rfl rfl rfl
  -- the run handles the elements from the one at the index on
  have hfits : offset shape (clamp shape index) + c ≤ volume shape := by
    have hlast := offset_lt (hbump (c - 1) (by omega))
    rw [offset_bump hlength hne] at hlast
    rw [clamp_self hindex]
    omega
  let n := if shape.getLast? = small.getLast? then c else 1
  have hmoves : ∀ j < n, offset small (clamp small (bump j index)) = offset small (clamp small index) + j := by
    intro j hj
    by_cases hlast : shape.getLast? = small.getLast?
    · rw [hsmall.clamp_bump hne (hbump j (by simpa [n, hlast] using hj)), if_pos hlast, offset_bump]
      · rw [clamp, length_zipWith, hlength, hsmall.length_eq, Nat.min_self]
      · rintro rfl
        exact hne (length_eq_zero_iff.1 hsmall.length_eq.symm)
    · obtain rfl : j = 0 := by simpa [n, hlast] using hj
      rw [bump_zero, Nat.add_zero]
  have hn : 0 < n ∧ n ≤ c := by
    show 0 < (if _ then c else 1) ∧ (if _ then c else 1) ≤ c
    split <;> omega
  have hfits' : offset small (clamp small index) + n ≤ volume small := by
    have hlast := offset_lt (hsmall.within_clamp (hbump (n - 1) (by omega)))
    rw [hmoves (n - 1) (by omega)] at hlast
    omega
  have hvolume' : volume small < 2 ^ 62 := Nat.lt_of_le_of_lt (hsmall.volume_le hshape) hvolume
  have hopen0 := opens_of_follows (T := .planar 0 shape) (L :=
    interfaceLayout sumArgs [a, b] [out] lanes) hleft hindex rfl
    ha hvolume hfits
  have hopen1 := opens_of_follows (T := .planar 1 small) (L :=
    interfaceLayout sumArgs [a, b] [out] lanes) hright hindex rfl
    hb hvolume' hfits'
  have hopen5 := opens_of_follows (T := .planar 5 shape) (L :=
    interfaceLayout sumArgs [a, b] [out] lanes) hdst hindex rfl
    hout hvolume hfits
  have hstored : stored [x, y, z, w] = [.planar 5 shape] := by
    have hy : y.kind ≠ .store := by rcases h.spread.1 with hy | hy <;> rw [hy.1] <;> decide
    rw [stored_cons_of_ne (by rw [h.load.1]; decide), stored_cons_of_ne hy, stored_cons_of_ne (by rw [h.add.1]; decide),
      stored_cons_store h.store.1 h.store.2.2.2]
    rfl
  refine ⟨⟨sumLanes A shape small a b index, [(0, c), (1, n)], ?_, ?_, ?_⟩, ?_⟩
  · -- what is behind the loads
    have hrest : Flow A (interfaceLayout sumArgs [a, b] [out] lanes)
        (along (ratesOver (sumOperands shape small) (sumSteps shape small) shape) index) c
        (sumLanes A shape small a b index)
        [(0, c), (1, n)] [3, 2] [z, w] := by
      refine .binary h.add.1 h.add.2.2.1 h.add.2.2.2 (by rw [h.add.2.1]; rfl) (by simp [Tensor.planar])
        (by simp [Tensor.planar]) (fun _ _ => rfl)
        (.store h.store.1 h.store.2.2.1 h.store.2.2.2 hopen5 ?_ ?_ ?_ (.nil _))
      · exact mem_cons_self
      · exact fun _ _ => rfl
      · simp only [mem_cons, not_mem_nil, or_false]
        rintro w (rfl | rfl) <;> exact fun heq => by cases heq
    refine .load h.load.1 h.load.2.2.1 h.load.2.2.2 hopen0 mem_cons_self (fun _ _ => rfl) ?_
    rcases h.spread.1 with ⟨hkind, -, hlast⟩ | ⟨hkind, -, hlast⟩
    · have hnc : n = c := if_pos hlast
      exact .load hkind h.spread.2.1 h.spread.2.2 (hnc ▸ hopen1) (by simp [hnc, Tensor.planar]) (fun _ _ => rfl) hrest
    · have hn1 : n = 1 := if_neg hlast
      refine .broadcast hkind h.spread.2.1 h.spread.2.2 (hn1 ▸ hopen1) (by simp [hn1, Tensor.planar]) ?_ hrest
      intro j hj
      show b.getD (offset small (clamp small (bump j index))) A.zero =
        b.getD (offset small (clamp small (bump 0 index))) A.zero
      rw [hsmall.clamp_bump hne (hbump j hj), if_neg hlast, bump_zero]
  · rw [Delivers, hstored]
    intro t ht blk hblk s hs j hj
    obtain rfl := mem_singleton.1 ht
    have hstart : s = offset shape index := by
      have := hopen5.start
      rw [clamp_self hindex] at this
      exact Int.ofNat.inj (hs.symm.trans this)
    show A.add _ _ = A.add _ _
    rw [hstart, ← offset_bump hlength hne, indexAt_offset (hbump j hj)]
  · simp only [mem_cons, not_mem_nil, or_false]
    rintro v (rfl | rfl)
    · refine ⟨1, rfl, (by decide : (1 : Nat) ≠ 3), fun j _ => ?_⟩
      have hstart := congrArg Int.toNat hopen0.start
      rw [Int.toNat_natCast, clamp_self hindex] at hstart
      exact congrArg (fun i => a.getD (i + j) A.zero) hstart
    · refine ⟨2, rfl, (by decide : (2 : Nat) ≠ 3), fun j hj => ?_⟩
      have hstart := congrArg Int.toNat hopen1.start
      rw [Int.toNat_natCast] at hstart
      refine (congrArg (fun i => b.getD (i + j) A.zero) hstart).trans ?_
      show b.getD (offset small (clamp small index) + j) A.zero =
        b.getD (offset small (clamp small (bump j index))) A.zero
      rw [hmoves j hj]
  · rw [hstored]
    intro t ht blk hblk
    obtain rfl := mem_singleton.1 ht
    exact (Option.some.inj hblk).symm

/-- The runs of a sum store every element of the output. -/
theorem Sums.covers (h : Sums shape small inc p p' x y z w) (hne : shape ≠ [])
    (hshape : ∀ d ∈ shape, 0 < d)
    (hvolume : volume shape < 2 ^ 62) (hsmall : Broadcasts shape small) (hinc : 0 < inc) {e : Nat}
    (he : e < volume shape) :
    ∃ index c tail, Spot inc shape index c tail ∧
      hits (interfaceLayout sumArgs [a, b] [out] lanes)
        (along (ratesOver (sumOperands shape small) (sumSteps shape small) shape) index) c [x, y, z, w] 3 e := by
  have hnonneg : ∀ d ∈ shape, 0 ≤ d := fun d hd => Int64.le_of_lt (hshape d hd)
  obtain ⟨hwithin, hoffset⟩ := offset_indexAt he
  obtain ⟨index, c, tail, j, hspot, hj, hbump⟩ := exists_spot hinc hnonneg hne hwithin
  have hindex := hspot.within hinc hnonneg
  rw [hbump, offset_bump hspot.length_eq hne] at hoffset
  obtain ⟨-, -, hdst⟩ := follows_sum hsmall [] [] rfl rfl rfl
  refine ⟨index, c, tail, hspot, .planar 5 shape, ?_, rfl, offset shape index, ?_, by omega, by omega⟩
  · exact mem_flatMap.2 ⟨w, by simp, by rw [if_pos h.store.1, h.store.2.2.2]; exact mem_singleton_self _⟩
  · refine (congrArg Int64.toInt (hdst.along_eq hindex)).trans ?_
    rw [clamp_self hindex]
    exact Int64.toInt_ofNat_of_lt (by omega)

end Carrying

/-! ## Running a sum -/

/-- What the interface of a sum asks for. -/
theorem Kernel.IsSum.asks {k : Kernel} {shape small : List Amount} {inc : Amount}
    {p p' x y z w r : Expr}
    {ids : List LoopId} (h : k.IsSum shape small inc p p' x y z w r ids) (hshape : ∀ d ∈ shape, 0 < d)
    (hsmall : Broadcasts shape small) {a b out : Array α} (ha : a.size = volume shape) (hb : b.size = volume small)
    (hout : out.size = volume shape) (lanes : Nat) :
    Asks (interfaceLayout sumArgs [a, b] [out] lanes).room 2 1 0 0 ([p, p'] ++ [r]) sumArgs := by
  have hsize : ∀ i own, (∀ d ∈ own, 0 < d) → (Tensor.planar i own).numElements = Int64.ofNat (volume own) :=
    fun i own hown => product_eq_volume fun d hd => Int64.le_of_lt (hown d hd)
  refine .argument (.parameter h.sums.left.1 h.sums.left.2.1 h.sums.left.2.2) rfl ?_
    (.argument (.parameter h.sums.right.1 h.sums.right.2.1 h.sums.right.2.2) rfl ?_
      (.argument (.result h.result.1 h.result.2.1 h.result.2.2) rfl ?_ .nil))
  · rw [hsize _ _ hshape, ← ha]
    rfl
  · rw [hsize _ _ (hsmall.pos hshape), ← hb]
    rfl
  · rw [hsize _ _ hshape, ← hout]
    rfl

/-- Lowered under any configuration and run on any inputs, a broadcast nest adds at every index the
    elements of the inputs there, the second one taken at its first element in each dimension where
    it has a single one. The lanes of a register, which are no more than a step and no more than the
    innermost dimension, must have room in memory. -/
theorem Build.broadcastNest_adds (A : Arithmetic α) (config : Config) {shape small : List Amount}
    (hne : shape ≠ [])
    (hrank : shape.length ≤ 2 ^ 45) (hshape : ∀ d ∈ shape, 0 < d) (hvolume : volume shape < 2 ^ 62)
    (hsmall : Broadcasts shape small) {inc : Amount} (hinc : 0 < inc) (hknown : inc < Amount.dynamic)
    (hlanes : min inc.trips (shape.getLast hne).trips ≤ 2 ^ 46) {a b out : Array α} (ha : a.size = volume shape)
    (hb : b.size = volume small) (hout : out.size = volume shape) :
    ∃ operands s, broadcastNest shape small inc
      (.start config .float32 (Int64.ofNat shape.length) inc) = .ok operands s ∧
      (Pipeline.run s.kernel Pipeline.standard).failure = none ∧
      ∃ m sum, Machine.run A (Pipeline.run s.kernel Pipeline.standard).kernel none [a, b] [out] = .ok m ∧
        m.outputs A 2 1 = [sum] ∧ sum.size = volume shape ∧
        ∀ index, Within shape index → ∃ u v, a[offset shape index]? = some u ∧
          b[offset small (clamp small index)]? = some v ∧ sum[offset shape index]? = some (A.add u v) := by
  obtain ⟨s, p, p', x, y, z, w, r, ids, hbuild, hsum, -⟩ := broadcastNest_run config inc hrank hshape hvolume hsmall
  have hstatic : inc.isDynamic = false := by
    rw [Amount.isDynamic, beq_eq_false_iff_ne]
    rintro rfl
    exact Int64.lt_irrefl hknown
  have htower := hsum.hasTower hrank hshape hsmall hne hvolume hinc hstatic
  obtain ⟨hkernel, hfailure⟩ :=
    Pipeline.run_cons_ok (p := .fusion) hsum.fusion_idle [.markers, .tails, .coloring, .placement]
  obtain ⟨lanes, m, hfail, hrun, houtputs⟩ := htower.run A (hsum.asks hshape hsmall ha hb hout) (by decide)
    (by
      simp [Piece.outside, sumPiece, hsum.next, hsum.sums.left.2.2, hsum.sums.right.2.2, hsum.sums.load.2.2.2,
        hsum.sums.spread.2.2, hsum.sums.add.2.2.2, hsum.sums.store.2.2.2, Tensor.planar])
    (by show (3 : Nat) ≤ 2 ^ 45; omega) (by simp [sumOperands, sumArgs, Tensor.planar]) (min_le_iff.1 hlanes)
    (K := sumCanvas A shape small a b out) rfl
    (fun lanes index c tail hspot => hsum.sums.carries hne hshape hvolume hsmall hinc ha hb hout hspot)
    fun lanes j hj e he => by
      obtain rfl : j = 0 := Nat.lt_one_iff.1 hj
      exact hsum.sums.covers hne hshape hvolume hsmall hinc (hout ▸ he)
  let sum : Array α := Array.ofFn fun e : Fin out.size =>
    A.add (a.getD e A.zero) (b.getD (offset small (clamp small (indexAt shape e))) A.zero)
  refine ⟨_, s, hbuild, hfailure.trans hfail, m, sum, hkernel ▸ hrun, houtputs, ?_, ?_⟩
  · rw [Array.size_ofFn, hout]
  · intro index hindex
    have hlt := offset_lt hindex
    have hlt' := offset_lt (hsmall.within_clamp hindex)
    refine ⟨a.getD (offset shape index) A.zero, b.getD (offset small (clamp small index)) A.zero, ?_, ?_, ?_⟩
    · rw [Array.getD_eq_getD_getElem?, Array.getElem?_eq_getElem (ha ▸ hlt)]
      rfl
    · rw [Array.getD_eq_getD_getElem?, Array.getElem?_eq_getElem (hb ▸ hlt')]
      rfl
    · rw [Array.getElem?_ofFn, dif_pos (hout ▸ hlt), indexAt_offset hindex]

/-- A column is added to the columns of a matrix, in steps that do not divide its rows. -/
theorem Build.broadcastNest_adds_column :
    ∃ operands s, broadcastNest [2, 3] [2, 1] 2 (.start {} .float32 2 2) = .ok operands s ∧
      (Pipeline.run s.kernel Pipeline.standard).failure = none ∧
      ∃ m sum, Machine.run .single (Pipeline.run s.kernel Pipeline.standard).kernel none
          [#[1, 2, 3, 4, 5, 6], #[10, 20]] [#[0, 0, 0, 0, 0, 0]] = .ok m ∧
        m.outputs .single 2 1 = [sum] ∧ sum.size = 6 ∧ sum[4]? = some (Arithmetic.single.add 5 20) := by
  obtain ⟨operands, s, hbuild, hlower, m, sum, hrun, houtputs, hsize, hsum⟩ :=
    broadcastNest_adds .single {} (show ([2, 3] : List Amount) ≠ [] by decide) (show 2 ≤ 2 ^ 45 by omega) (by simp)
      (show 6 < 2 ^ 62 by omega) (show Broadcasts [2, 3] [2, 1] by decide) (show (0 : Amount) < 2 by decide) (by decide)
      (show 2 ≤ 2 ^ 46 by omega) (show #[1, 2, 3, 4, 5, 6].size = 6 from rfl) (show #[10, 20].size = 2 from rfl)
      (show #[0, 0, 0, 0, 0, 0].size = 6 from rfl)
  obtain ⟨u, v, hu, hv, helement⟩ := hsum [1, 1] (.cons (by decide) (.cons (by decide) .nil))
  obtain rfl : 5 = u := Option.some.inj hu
  obtain rfl : 20 = v := Option.some.inj hv
  exact ⟨operands, s, hbuild, hlower, m, sum, hrun, houtputs, hsize, helement⟩

end KernelLoops
