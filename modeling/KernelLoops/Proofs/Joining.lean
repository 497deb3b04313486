import KernelLoops.Proofs.FusionProgress

set_option autoImplicit false

/-! # Joining loops

Two loops of a schedule that stand next to each other can be made one: the expressions of one are
tagged with the other, and connections between the two leave the boundary. What is left is a
schedule again. -/

namespace KernelLoops

open List

variable {x y : Expr} {g : LoopInfo → LoopInfo} {i : Nat} {p : Port} {u : Tensor} {t : TensorId}

/-- The operands on one side of an expression. -/
def Expr.onSide (x : Expr) : Side → List Tensor
  | .input => x.inputs
  | .output => x.outputs

/-- The tensor is at the port. -/
def Port.Carries (xs : List Expr) (p : Port) (t : TensorId) : Prop :=
  ∃ x ∈ xs, x.id = p.expr ∧ ∃ u, (x.onSide p.side)[p.index]? = some u ∧ u.id = t

theorem Port.Carries.of_mem {xs : List Expr} (h : p.Carries xs t) (hids : (xs.map Expr.id).Nodup)
    (hx : x ∈ xs)
    (hid : x.id = p.expr) : ∃ u, (x.onSide p.side)[p.index]? = some u ∧ u.id = t := by
  obtain ⟨y, hy, hyid, hu⟩ := h
  rwa [inj_on_of_nodup_map hids hx hy (hid.trans hyid.symm)]

/-- What is left of the exits of one loop and the entries of the loop behind it once they are one:
    the entries that are not fed by one of the exits, and at least those exits that are used outside
    both loops. -/
structure Joint (xs : List Expr) (f s : LoopId) (oldExits oldEntries exits entries : List Port) :
    Prop where
  nodup : entries.Nodup
  mem_entries : ∀ p, p ∈ entries ↔ p ∈ oldEntries ∧ ∀ q ∈ oldExits, ∀ t, q.Carries xs t → ¬p.Carries xs t
  exits_sub : ∀ q ∈ exits, q ∈ oldExits
  used : ∀ q ∈ oldExits, ∀ t, q.Carries xs t →
    ∀ z ∈ xs, z.inLoop f = false → z.inLoop s = false → z.uses t = true → q ∈ exits

namespace Expr

/-- The expression with another loop in the place of `target`. -/
def joined (level : Nat) (target id : LoopId) (x : Expr) : Expr :=
  if x.loopIds[level]? = some target then { x with loopIds := x.loopIds.set level id } else x

variable {level : Nat} {target id : LoopId}

theorem joined_eq (level : Nat) (target id : LoopId) (x : Expr) :
    x.joined level target id = { x with loopIds := (x.joined level target id).loopIds } := by
  unfold joined
  split <;> rfl

@[simp] theorem joined_id : (x.joined level target id).id = x.id := by rw [joined_eq]
@[simp] theorem joined_kind : (x.joined level target id).kind = x.kind := by rw [joined_eq]
@[simp] theorem joined_inputs : (x.joined level target id).inputs = x.inputs := by rw [joined_eq]
@[simp] theorem joined_outputs : (x.joined level target id).outputs = x.outputs := by rw [joined_eq]

@[simp] theorem joined_makes (t : TensorId) :
    (x.joined level target id).makes t = x.makes t := by simp [makes]
@[simp] theorem joined_uses (t : TensorId) :
    (x.joined level target id).uses t = x.uses t := by simp [uses]

@[simp] theorem joined_precedes :
    (x.joined level target id).Precedes (y.joined level target id) ↔ x.Precedes y := by
  simp [Precedes]

@[simp] theorem length_joined : (x.joined level target id).loopIds.length = x.loopIds.length := by
  unfold joined
  split <;> simp

/-- Only the level of the join changes. -/
theorem getElem?_joined (i : Nat) : (x.joined level target id).loopIds[i]? =
    if i = level ∧ x.loopIds[level]? = some target then some id else x.loopIds[i]? := by
  unfold joined
  split
  · next h =>
      rw [getElem?_set]
      by_cases hi : level = i
      · subst hi
        rw [if_pos rfl, if_pos (List.getElem?_eq_some_iff.1 h).1, if_pos ⟨rfl, h⟩]
      · rw [if_neg hi, if_neg fun hand => hi hand.1.symm]
  · next h => simp [h]

end Expr

section Joining

variable {depth level : Nat} {loops : LoopTable} {xs pre post F S : List Expr}
  {f s target id : LoopId}
  {first second info : LoopInfo} {exits entries : List Port}

theorem map_id_joined : (xs.map (·.joined level target id)).map Expr.id = xs.map Expr.id := by
  rw [map_map]
  exact map_congr_left fun x _ => Expr.joined_id

theorem mem_entryPorts_joined : p ∈ entryPorts (xs.map (·.joined level target id)) f ↔
    p.side = .input ∧
    ∃ x ∈ xs, (x.joined level target id).inLoop f = true ∧ x.id = p.expr ∧ ∃ t, x.inputs[p.index]? = some t ∧
      ∀ y ∈ xs, (y.joined level target id).inLoop f = true → y.makes t.id = false := by
  simp [mem_entryPorts]

theorem Expr.makes_of_getElem? (hu : x.outputs[i]? = some u) : x.makes u.id = true :=
  any_eq_true.2 ⟨u, mem_of_getElem? hu, decide_eq_true rfl⟩

theorem Expr.uses_of_getElem? (hu : x.inputs[i]? = some u) : x.uses u.id = true :=
  any_eq_true.2 ⟨u, mem_of_getElem? hu, decide_eq_true rfl⟩

/-- What is made has an output port. -/
theorem Expr.exists_of_makes (h : x.makes t = true) :
    ∃ (i : Nat) (u : Tensor), x.outputs[i]? = some u ∧ u.id = t := by
  obtain ⟨u, hu, ht⟩ := any_eq_true.1 h
  obtain ⟨i, hi⟩ := mem_iff_getElem?.1 hu
  exact ⟨i, u, hi, of_decide_eq_true ht⟩

/-- The boundary of two loops that became one. -/
theorem Scheduled.bounds_join (h : Scheduled depth loops xs) (hfirst : first.Bounds xs f)
    (hsecond : second.Bounds xs s)
    (hin : ∀ x ∈ xs, (x.joined level target id).inLoop id = (x.inLoop f || x.inLoop s))
    (hapart : ∀ x ∈ xs, x.inLoop s = true → x.inLoop f = false)
    (horder : ∀ x ∈ xs, x.inLoop f = true → ∀ y ∈ xs, y.inLoop s = true → ∀ t, x.uses t = true → y.makes t = false)
    (hjoint : Joint xs f s first.exits second.entries exits entries)
    (hentries : info.entries = first.entries ++ entries) (hexits : info.exits = exits ++ second.exits) :
    info.Bounds (xs.map (·.joined level target id)) id where
  entries := by
    have hnodup : (first.entries ++ entries).Nodup := by
      refine nodup_append.2 ⟨hfirst.entries.nodup_iff.2 (nodup_entryPorts h.ids), hjoint.nodup, ?_⟩
      rintro p hp q hq rfl
      obtain ⟨-, x, hx, hxf, hid, -⟩ := mem_entryPorts.1 (hfirst.entries.mem_iff.1 hp)
      obtain ⟨-, y, hy, hys, hid', -⟩ := mem_entryPorts.1 (hsecond.entries.mem_iff.1 ((hjoint.mem_entries p).1 hq).1)
      rw [inj_on_of_nodup_map h.ids hx hy (hid.trans hid'.symm), hapart y hy hys] at hxf
      cases hxf
    refine hentries ▸ (perm_ext_iff_of_nodup hnodup
      (nodup_entryPorts (by rw [map_id_joined]; exact h.ids))).2 fun p => ?_
    rw [mem_append, hfirst.entries.mem_iff, hjoint.mem_entries, hsecond.entries.mem_iff, mem_entryPorts_joined,
      mem_entryPorts, mem_entryPorts]
    constructor
    · rintro (⟨hside, x, hx, hxf, hid, t, ht, hmade⟩ | ⟨⟨hside, x, hx, hxs, hid, t, ht, hmade⟩, hfree⟩)
      · refine ⟨hside, x, hx, by rw [hin x hx, hxf]; rfl, hid, t, ht, fun y hy hyin => ?_⟩
        rw [hin y hy, Bool.or_eq_true] at hyin
        exact hyin.elim (hmade y hy) fun hys => horder x hx hxf y hy hys _ (Expr.uses_of_getElem? ht)
      · refine ⟨hside, x, hx, by rw [hin x hx, hxs, Bool.or_true], hid, t, ht, fun y hy hyin => ?_⟩
        rw [hin y hy, Bool.or_eq_true] at hyin
        refine hyin.elim (fun hyf => Bool.eq_false_iff.2 fun hmakes => ?_) (hmade y hy)
        -- An output of the first loop that the second one uses is an exit, so the entry was
        -- dropped.
        obtain ⟨i, u, hu, hut⟩ := Expr.exists_of_makes hmakes
        have hexit : (⟨y.id, .output, i⟩ : Port) ∈ first.exits := by
          refine hfirst.used _ (mem_exitPorts.2 ⟨rfl, y, hy, hyf, rfl, u, hu, x, hx, hapart x hx hxs, ?_⟩)
          exact hut ▸ Expr.uses_of_getElem? ht
        exact hfree _ hexit t.id ⟨y, hy, rfl, u, hu, hut⟩ ⟨x, hx, hid, t, by rw [hside]; exact ht, rfl⟩
    · rintro ⟨hside, x, hx, hxin, hid, t, ht, hmade⟩
      have hmade : ∀ y ∈ xs, (y.inLoop f || y.inLoop s) = true → y.makes t.id = false :=
        fun y hy hyin => hmade y hy (by rwa [hin y hy])
      rw [hin x hx, Bool.or_eq_true] at hxin
      rcases hxin with hxf | hxs
      · exact .inl ⟨hside, x, hx, hxf, hid, t, ht, fun y hy hyf => hmade y hy (by rw [hyf]; rfl)⟩
      · refine .inr ⟨⟨hside, x, hx, hxs, hid, t, ht, fun y hy hys => hmade y hy (by rw [hys, Bool.or_true])⟩, ?_⟩
        intro q hq u hqu hpu
        obtain ⟨hqside, y, hy, hyf, hyid, -⟩ := mem_outputPorts.1 (hfirst.own q hq)
        obtain ⟨v, hv, rfl⟩ := hqu.of_mem h.ids hy hyid
        obtain ⟨w, hw, hwv⟩ := hpu.of_mem h.ids hx hid
        rw [hqside] at hv
        rw [hside] at hw
        have hmakes := Expr.makes_of_getElem? (x := y) hv
        rw [← hwv, Option.some.inj (hw.symm.trans ht), hmade y hy (by rw [hyf]; rfl)] at hmakes
        cases hmakes
  nonempty := by
    rw [hexits]
    exact append_ne_nil_of_right_ne_nil _ hsecond.nonempty
  own p hp := by
    simp only [mem_outputPorts, mem_map, exists_exists_and_eq_and, Expr.joined_id, Expr.joined_outputs]
    rw [hexits, mem_append] at hp
    rcases hp with hp | hp
    · obtain ⟨hside, x, hx, hxf, hrest⟩ := mem_outputPorts.1 (hfirst.own p (hjoint.exits_sub p hp))
      exact ⟨hside, x, hx, by rw [hin x hx, hxf]; rfl, hrest⟩
    · obtain ⟨hside, x, hx, hxs, hrest⟩ := mem_outputPorts.1 (hsecond.own p hp)
      exact ⟨hside, x, hx, by rw [hin x hx, hxs, Bool.or_true], hrest⟩
  used p hp := by
    simp only [mem_exitPorts, mem_map, exists_exists_and_eq_and, Expr.joined_id, Expr.joined_outputs,
      Expr.joined_uses] at hp
    obtain ⟨hside, x, hx, hxin, hid, t, ht, y, hy, hyout, huse⟩ := hp
    rw [hin y hy, Bool.or_eq_false_iff] at hyout
    rw [hin x hx, Bool.or_eq_true] at hxin
    rw [hexits, mem_append]
    rcases hxin with hxf | hxs
    · refine .inl (hjoint.used p ?_ t.id ⟨x, hx, hid, t, by rw [hside]; exact ht, rfl⟩ y hy hyout.1 hyout.2 huse)
      exact hfirst.used p (mem_exitPorts.2 ⟨hside, x, hx, hxf, hid, t, ht, y, hy, hyout.1, huse⟩)
    · exact .inr (hsecond.used p (mem_exitPorts.2 ⟨hside, x, hx, hxs, hid, t, ht, y, hy, hyout.2, huse⟩))

/-- The boundary of a loop that is not among those joined. -/
theorem LoopInfo.Bounds.joined (h : info.Bounds xs f)
    (hin : ∀ x ∈ xs, (x.joined level target id).inLoop f = x.inLoop f) :
    info.Bounds (xs.map (·.joined level target id)) f := by
  have hfilter : (xs.map (·.joined level target id)).filter (·.inLoop f) =
      (xs.filter (·.inLoop f)).map (·.joined level target id) := by
    rw [filter_map]
    exact congrArg (List.map _) (filter_congr hin)
  have hentries : entryPorts (xs.map (·.joined level target id)) f = entryPorts xs f := by
    have hany (t : TensorId) : (xs.any fun y => (y.joined level target id).inLoop f && y.makes t) =
        xs.any fun y => y.inLoop f && y.makes t := by
      rw [Bool.eq_iff_iff, any_eq_true, any_eq_true]
      exact exists_congr fun y => and_congr_right fun hy => by rw [hin y hy]
    simp only [entryPorts, hfilter, flatMap_map, any_map, Function.comp_def, Expr.joined_makes,
      Expr.joined_inputs, Expr.joined_id, hany]
  refine ⟨hentries ▸ h.entries, h.nonempty, fun p hp => ?_, fun p hp => h.used p ?_⟩
  · have hown := h.own p hp
    simp only [outputPorts, hfilter, flatMap_map, Expr.joined_outputs, Expr.joined_id] at hown ⊢
    exact hown
  · simp only [mem_exitPorts, mem_map, exists_exists_and_eq_and, Expr.joined_id, Expr.joined_outputs,
      Expr.joined_uses] at hp ⊢
    obtain ⟨hside, x, hx, hxin, hid, t, ht, y, hy, hyout, huse⟩ := hp
    rw [hin x hx] at hxin
    rw [hin y hy] at hyout
    exact ⟨hside, x, hx, hxin, hid, t, ht, y, hy, hyout, huse⟩

/-! ### The loops of a joined expression -/

theorem inLoop_joined_of_ne (hid : f ≠ id) (htarget : f ≠ target) :
    (x.joined level target id).inLoop f = x.inLoop f := by
  rw [Bool.eq_iff_iff, inLoop_iff, inLoop_iff]
  refine exists_congr fun i => ?_
  rw [Expr.getElem?_joined]
  split
  · next h =>
      rw [h.1, h.2]
      simp [Ne.symm hid, Ne.symm htarget]
  · rfl

/-- The loop that is taken in stands at one level only. -/
theorem inLoop_joined_self (htarget : x.inLoop target = true → x.loopIds[level]? = some target) :
    (x.joined level target id).inLoop id = (x.inLoop target || x.inLoop id) := by
  by_cases h : x.loopIds[level]? = some target
  · rw [inLoop_iff.2 ⟨level, h⟩, Bool.true_or]
    exact inLoop_iff.2 ⟨level, by rw [Expr.getElem?_joined, if_pos ⟨rfl, h⟩]⟩
  · rw [Bool.eq_false_iff.2 fun hin => h (htarget hin), Bool.false_or, Expr.joined, if_neg h]

theorem LoopsAgree.not_inLoop_joined (hn : LoopsAgree xs) (hx : x ∈ xs) (hne : id ≠ target)
    (hreal : target.isSentinel = false) (htarget : x.inLoop target = true → x.loopIds[level]? = some target) :
    (x.joined level target id).inLoop target = false := by
  refine Bool.eq_false_iff.2 fun h => ?_
  obtain ⟨i, hi⟩ := inLoop_iff.1 h
  rw [Expr.getElem?_joined] at hi
  split at hi
  · exact hne (Option.some.inj hi)
  · next hnot =>
      have hlevel := htarget (inLoop_iff.2 ⟨i, hi⟩)
      refine hnot ⟨?_, hlevel⟩
      exact (hn.agree hx hx hi hlevel hreal).1

/-- Two loops next to each other, and the way to make them one: one of them is the target, which the
    other takes in. -/
structure Meeting (level : Nat) (target id f s : LoopId) (pre F S post : List Expr) : Prop
    extends Facing level f s pre F [] S post where
  pair : target = f ∧ id = s ∨ target = s ∧ id = f
  ne : id ≠ target

namespace Meeting

variable (hm : Meeting level target id f s pre F S post)

include hm

theorem real_target : target.isSentinel = false := by
  rcases hm.pair with ⟨rfl, -⟩ | ⟨rfl, -⟩
  · exact hm.real_first
  · exact hm.real_second

/-- The target is at the level of the join. -/
theorem at_level (hx : x ∈ pre ++ F ++ S ++ post) (hin : x.inLoop target = true) :
    x.loopIds[level]? = some target := by
  have hx : x ∈ pre ++ F ++ [] ++ S ++ post := by simpa using hx
  rcases hm.pair with ⟨rfl, -⟩ | ⟨rfl, -⟩
  · exact hm.first x ((hm.mem_first hx).1 hin)
  · exact hm.second x ((hm.mem_second hx).1 hin)

theorem inLoop (hx : x ∈ pre ++ F ++ S ++ post) :
    (x.joined level target id).inLoop id = (x.inLoop f || x.inLoop s) := by
  rw [inLoop_joined_self (hm.at_level hx)]
  rcases hm.pair with ⟨rfl, rfl⟩ | ⟨rfl, rfl⟩
  · rfl
  · exact Bool.or_comm _ _

end Meeting

theorem LoopTable.mem_entries_joined {l : LoopId × LoopInfo}
    (hl : l ∈ ((loops.modify id g).erase target).entries) :
    l.1 ≠ target ∧ ∃ info, (l.1, info) ∈ loops.entries ∧ l.2 = if l.1 = id then g info else info := by
  obtain ⟨hl, hne⟩ := mem_filter.1 hl
  obtain ⟨⟨i, info⟩, hi, rfl⟩ := mem_map.1 hl
  exact ⟨by simpa using hne, info, hi, rfl⟩

section

variable (hm : Meeting level target id f s pre F S post)

include hm

theorem Meeting.together : Contiguous (·.inLoop id) ((pre ++ F ++ S ++ post).map (·.joined level target id)) := by
  have hboth : Contiguous (fun x : Expr => x.inLoop f || x.inLoop s) (pre ++ (F ++ S) ++ post) := by
    refine ((contiguous_of_forall fun x hx => ?_).append_left fun x hx => ?_).append_right fun x hx => ?_
    · rcases mem_append.1 hx with hx | hx
      · rw [inLoop_iff.2 ⟨level, hm.first x hx⟩, Bool.true_or]
      · rw [inLoop_iff.2 ⟨level, hm.second x hx⟩, Bool.or_true]
    · rw [hm.only_first x (by simp [hx]), hm.only_second x (by simp [hx])]
      rfl
    · rw [hm.only_first x (by simp [hx]), hm.only_second x (by simp [hx])]
      rfl
  rw [← append_assoc] at hboth
  refine .map ?_
  exact hboth.congr fun x hx => hm.inLoop hx

/-- The target is not among the loops that are left. -/
theorem Meeting.of_mem_joined (hn : LoopsAgree (pre ++ F ++ S ++ post))
    (hx : x ∈ pre ++ F ++ S ++ post) {a : LoopId} (ha : a ∈ LoopId.loops (x.joined level target id).loopIds) :
    (x.joined level target id).inLoop a = true ∧ a.isSentinel = false ∧ a ≠ target := by
  obtain ⟨ha, hreal⟩ := LoopId.mem_loops.1 ha
  obtain ⟨i, hi⟩ := mem_iff_getElem?.1 ha
  exact ⟨contains_iff_mem.2 ha, hreal,
    ne_of_not_inLoop (hn.not_inLoop_joined hx hm.ne hm.real_target (hm.at_level hx)) hi⟩

/-- Both loops are at the level of the join. -/
theorem Meeting.getElem?_joined (hx : x ∈ F ++ S) :
    (x.joined level target id).loopIds[level]? = some id := by
  rw [Expr.getElem?_joined]
  split
  · rfl
  · next hnot =>
      rcases hm.pair with ⟨rfl, rfl⟩ | ⟨rfl, rfl⟩
      · exact (mem_append.1 hx).elim (fun hx => absurd ⟨rfl, hm.first x hx⟩ hnot) (hm.second x)
      · exact (mem_append.1 hx).elim (hm.first x) fun hx => absurd ⟨rfl, hm.second x hx⟩ hnot

/-- The loop that takes in the other one holds something. -/
theorem Meeting.exists_inLoop : ∃ x ∈ pre ++ F ++ S ++ post, x.inLoop id = true := by
  obtain ⟨x, hx⟩ := exists_mem_of_ne_nil F hm.first_ne
  obtain ⟨y, hy⟩ := exists_mem_of_ne_nil S hm.second_ne
  rcases hm.pair with ⟨-, rfl⟩ | ⟨-, rfl⟩
  · exact ⟨y, by simp [hy], inLoop_iff.2 ⟨level, hm.second y hy⟩⟩
  · exact ⟨x, by simp [hx], inLoop_iff.2 ⟨level, hm.first x hx⟩⟩

/-- Of two loops in a row, the first needs nothing that the second makes. -/
theorem Meeting.not_makes
    (h : Scheduled depth loops (pre ++ F ++ S ++ post)) (hx : x ∈ F) (hy : y ∈ S) (huses : x.uses t = true) :
    y.makes t = false := by
  refine Bool.eq_false_iff.2 fun hmakes => ?_
  obtain ⟨hinit, -, -⟩ := pairwise_append.1 h.ordered
  obtain ⟨-, -, hbetween⟩ := pairwise_append.1 hinit
  refine hbetween x (mem_append_right _ hx) y hy ?_
  exact h.precedes (by simp [hy]) (by simp [hx]) (inLoop_iff.2 ⟨level, hm.second y hy⟩)
    (inLoop_iff.2 ⟨level, hm.first x hx⟩) hm.real_second hm.real_first hmakes huses

end

/-- Joining two loops that stand next to each other. -/
theorem Scheduled.join (h : Scheduled depth loops (pre ++ F ++ S ++ post))
    (hn : LoopsAgree (pre ++ F ++ S ++ post))
    (hm : Meeting level target id f s pre F S post) (hfirst : first.Bounds (pre ++ F ++ S ++ post) f)
    (hsecond : second.Bounds (pre ++ F ++ S ++ post) s)
    (hjoint : Joint (pre ++ F ++ S ++ post) f s first.exits second.entries exits entries)
    (hentries : ∀ l, (g l).entries = first.entries ++ entries) (hexits : ∀ l, (g l).exits = exits ++ second.exits) :
    Scheduled depth ((loops.modify id g).erase target)
      ((pre ++ F ++ S ++ post).map (·.joined level target id)) where
  ids := by
    rw [map_id_joined]
    exact h.ids
  unmarked := forall_mem_map.2 fun x hx => by simpa using h.unmarked x hx
  levels := forall_mem_map.2 fun x hx => by simpa using h.levels x hx
  interface := by
    refine forall_mem_map.2 fun x hx hio => ?_
    have hnone := h.interface x hx (by simpa using hio)
    rwa [Expr.joined, if_neg fun htarget => ?_]
    have hmem : target ∈ LoopId.loops x.loopIds := LoopId.mem_loops.2 ⟨mem_of_getElem? htarget, hm.real_target⟩
    rw [hnone] at hmem
    cases hmem
  registered := by
    refine forall_mem_map.2 fun x hx i hi => ?_
    obtain ⟨hin, hreal, htarget⟩ := hm.of_mem_joined hn hx hi
    rw [LoopTable.get?_erase, if_neg htarget, LoopTable.get?_modify, Option.isSome_map]
    by_cases hid : i = id
    · obtain ⟨y, hy, hyin⟩ := hm.exists_inLoop
      exact h.isSome_of_inLoop hy (hid ▸ hyin) hreal
    · rw [inLoop_joined_of_ne hid htarget] at hin
      exact h.isSome_of_inLoop hx hin hreal
  together := by
    refine forall_mem_map.2 fun x hx i hi => ?_
    obtain ⟨hin, hreal, htarget⟩ := hm.of_mem_joined hn hx hi
    by_cases hid : i = id
    · exact hid ▸ hm.together
    · rw [inLoop_joined_of_ne hid htarget] at hin
      have hc := h.together x hx i (LoopId.mem_loops.2 ⟨contains_iff_mem.1 hin, hreal⟩)
      refine .map ?_
      exact hc.congr fun y _ => inLoop_joined_of_ne hid htarget
  once := by
    simpa [flatMap_map] using h.once
  ordered := pairwise_map.2 (h.ordered.imp fun hxy => by simpa using hxy)
  acyclic := forall_mem_map.2 fun x hx => by simpa using h.acyclic x hx
  bounds l hl := by
    obtain ⟨htarget, info, hinfo, heq⟩ := LoopTable.mem_entries_joined hl
    have hmem {x : Expr} (hx : x ∈ pre ++ F ++ S ++ post) : x ∈ pre ++ F ++ [] ++ S ++ post := by simpa using hx
    by_cases hid : l.1 = id
    · rw [heq, if_pos hid, hid]
      refine h.bounds_join hfirst hsecond (fun x hx => hm.inLoop hx) ?_ ?_ hjoint (hentries info) (hexits info)
      · intro x hx hxs
        have hxS := (hm.mem_second (hmem hx)).1 hxs
        exact hm.only_first x (by simp [hxS])
      · intro x hx hxf y hy hys t huses
        exact hm.not_makes h ((hm.mem_first (hmem hx)).1 hxf) ((hm.mem_second (hmem hy)).1 hys) huses
    · rw [heq, if_neg hid]
      exact (h.bounds _ hinfo).joined fun x _ => inLoop_joined_of_ne hid htarget

/-! ### Nesting -/

/-- Expressions that agree on the outer levels still do. -/
theorem take_joined_congr {n : Nat} (h : x.loopIds.take n = y.loopIds.take n) :
    (x.joined level target id).loopIds.take n = (y.joined level target id).loopIds.take n := by
  refine ext_getElem? fun i => ?_
  rw [getElem?_take, getElem?_take]
  split
  · next hi =>
      rw [Expr.getElem?_joined, Expr.getElem?_joined]
      by_cases hlevel : i = level
      · subst hlevel
        rw [getElem?_eq_of_take_eq hi h]
      · rw [if_neg fun hand => hlevel hand.1, if_neg fun hand => hlevel hand.1, getElem?_eq_of_take_eq hi h]
  · rfl

namespace Meeting

/-- What is in the joined loop was in one of the two. -/
theorem of_getElem?_joined (hm : Meeting level target id f s pre F S post)
    (hn : LoopsAgree (pre ++ F ++ S ++ post))
    (hx : x ∈ pre ++ F ++ S ++ post) (hi : (x.joined level target id).loopIds[i]? = some id) :
    i = level ∧ (x ∈ F ∨ x ∈ S) := by
  have hmem : x ∈ pre ++ F ++ [] ++ S ++ post := by simpa using hx
  have hin : (x.joined level target id).inLoop id = true := inLoop_iff.2 ⟨i, hi⟩
  rw [hm.inLoop hx, Bool.or_eq_true, hm.mem_first hmem, hm.mem_second hmem] at hin
  refine ⟨?_, hin⟩
  rw [Expr.getElem?_joined] at hi
  split at hi
  · next hand => exact hand.1
  · -- The expression had the loop already, and so has it at the level of the join.
    have hlevel : x.loopIds[level]? = some id := by
      have hxid : x.inLoop id = true := inLoop_iff.2 ⟨i, hi⟩
      rcases hm.pair with ⟨-, rfl⟩ | ⟨-, rfl⟩
      · exact hm.second x ((hm.mem_second hmem).1 hxid)
      · exact hm.first x ((hm.mem_first hmem).1 hxid)
    have hreal : id.isSentinel = false := by
      rcases hm.pair with ⟨-, rfl⟩ | ⟨-, rfl⟩
      · exact hm.real_second
      · exact hm.real_first
    exact (hn.agree hx hx hi hlevel hreal).1

/-- Everything in the two loops lies in the same loops further out. -/
theorem take_eq (hm : Meeting level target id f s pre F S post)
    (hn : LoopsAgree (pre ++ F ++ S ++ post))
    (hx : x ∈ F ∨ x ∈ S) (hy : y ∈ F ∨ y ∈ S) : x.loopIds.take level = y.loopIds.take level := by
  obtain ⟨z, hz⟩ := exists_mem_of_ne_nil S hm.second_ne
  have hto {x : Expr} (hx : x ∈ F ∨ x ∈ S) : x.loopIds.take level = z.loopIds.take level := by
    rcases hx with hx | hx
    · exact hm.outer x hx z hz
    · exact (hn.agree (by simp [hx]) (by simp [hz]) (hm.second x hx) (hm.second z hz) hm.real_second).2
  rw [hto hx, hto hy]

end Meeting

theorem LoopsAgree.join (hn : LoopsAgree (pre ++ F ++ S ++ post))
    (hm : Meeting level target id f s pre F S post) :
    LoopsAgree ((pre ++ F ++ S ++ post).map (·.joined level target id)) := by
  refine forall_mem_map.2 fun x hx => forall_mem_map.2 fun y hy i hi j hj a ha hb hreal => ?_
  by_cases haid : a = id
  · subst haid
    obtain ⟨rfl, hxin⟩ := hm.of_getElem?_joined hn hx ha
    obtain ⟨rfl, hyin⟩ := hm.of_getElem?_joined hn hy hb
    exact ⟨rfl, take_joined_congr (hm.take_eq hn hxin hyin)⟩
  · have hold {z : Expr} {n : Nat} (hz : (z.joined level target id).loopIds[n]? = some a) : z.loopIds[n]? = some a := by
      rw [Expr.getElem?_joined] at hz
      split at hz
      · exact absurd (Option.some.inj hz).symm haid
      · exact hz
    obtain ⟨rfl, htake⟩ := hn.agree hx hy (hold ha) (hold hb) hreal
    exact ⟨rfl, take_joined_congr htake⟩

/-- A level of a joined expression holds a loop with the increment of the loop it held before. -/
theorem exists_increment (hg : ∀ l, (g l).increment = l.increment)
    (htarget : (loops.get? target).isSome)
    (hsame : ∀ a ∈ loops.get? target, ∀ b ∈ loops.get? id, a.increment = b.increment) {a : LoopId} {info : LoopInfo}
    (ha : (x.joined level target id).loopIds[i]? = some a)
    (hinfo : ((loops.modify id g).erase target).get? a = some info) :
    ∃ b old, x.loopIds[i]? = some b ∧ loops.get? b = some old ∧ old.increment = info.increment := by
  rw [LoopTable.get?_erase] at hinfo
  split at hinfo
  · cases hinfo
  · rw [LoopTable.get?_modify] at hinfo
    obtain ⟨old, hold, rfl⟩ := Option.map_eq_some_iff.1 hinfo
    have hinc : (if a = id then g old else old).increment = old.increment := by
      split
      · exact hg old
      · rfl
    rw [Expr.getElem?_joined] at ha
    split at ha
    · next hand =>
        obtain ⟨t, ht⟩ := Option.isSome_iff_exists.1 htarget
        obtain rfl := Option.some.inj ha
        exact ⟨target, t, hand.1 ▸ hand.2, ht, by rw [hinc, hsame t ht old hold]⟩
    · exact ⟨a, old, ha, hold, hinc.symm⟩

theorem Uncrossed.join (hu : Uncrossed loops xs) (hg : ∀ l, (g l).increment = l.increment)
    (htarget : (loops.get? target).isSome)
    (hsame : ∀ a ∈ loops.get? target, ∀ b ∈ loops.get? id, a.increment = b.increment) :
    Uncrossed ((loops.modify id g).erase target) (xs.map (·.joined level target id)) := by
  refine forall_mem_map.2 fun x hx => forall_mem_map.2 fun y hy hxy i hi a ha b hb la hla lb hlb hinc => ?_
  obtain ⟨a', la', ha', hla', hincx⟩ := exists_increment hg htarget hsame ha hla
  obtain ⟨b', lb', hb', hlb', hincy⟩ := exists_increment hg htarget hsame hb hlb
  rw [Expr.length_joined] at hi
  refine take_joined_congr (hu x hx y hy (Expr.joined_precedes.1 hxy) i hi a' ha' b' hb' la' hla' lb' hlb' ?_)
  rw [hincx, hinc, hincy]

end Joining

end KernelLoops
