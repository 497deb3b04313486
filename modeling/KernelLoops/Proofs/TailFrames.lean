import KernelLoops.Proofs.Copying
import KernelLoops.Proofs.EditHistory
import Mathlib.Data.List.Perm.Basic

set_option autoImplicit false

/-! # What splitting a loop leaves alone

Splitting one loop changes the parameters of its closing marker and of loops it holds, puts a copy
right behind the marker and pads what the copy computes. Everything else stays where it was and what
it was. `Kernel.Framed` names what stays, relative to the markers that are not meant; every edit of
the pass keeps it, so no property of the kernel as a whole, such as proper nesting, is needed. -/

namespace KernelLoops

open List

variable {k s s' : Kernel} {x : Expr} {post pre : List Expr} {l : LoopParams} {size : Amount}
  {changed force touches vector : Bool} {f copy : Expr → Expr} {a b d e i y loopEnd : ExprId}
  {mapping : List (LoopId × LoopId)} {table : List (TensorId × Tensor)} {offsets : List Amount} {ws xs : List ExprId}
  {ids : List LoopId} {id : LoopId} {mark : Option ExprId} {c : RangeCopy} {α σ : Type}

/-- A loop keeps what it keeps at the items of its list. -/
theorem Keeps.forM_mem {P : σ → Prop} {f : α → EStateM Failure σ PUnit} {xs : List α}
    (hf : ∀ a ∈ xs, Keeps P (f a)) :
    Keeps P (xs.forM f) := by
  induction xs with
  | nil => exact .pure _
  | cons a xs ih =>
    exact .bind (hf a mem_cons_self) fun _ => ih fun b hb => hf b (mem_cons_of_mem a hb)

theorem Keeps.of_ok {P : σ → Prop} {step : EStateM Failure σ α} (h : Keeps P step) {s s' : σ}
    {a : α} (hs : P s)
    (hrun : step s = .ok a s') : P s' := by
  have hend := h s hs
  rwa [hrun] at hend

/-! ## Places in a list -/

section Places

theorem sublist_insertAt (e mark : ExprId) (xs : List ExprId) :
    Sublist xs (Edit.insertAt e mark xs) := by
  induction xs with
  | nil => exact nil_sublist _
  | cons x xs ih =>
    unfold Edit.insertAt
    split
    · exact sublist_cons_self e (x :: xs)
    · exact ih.cons_cons x

theorem sublist_place (e : ExprId) (mark : Option ExprId) (xs : List ExprId) :
    Sublist xs (Edit.place e mark xs) := by
  cases mark with
  | none => exact sublist_append_left xs [e]
  | some m => exact sublist_insertAt e m xs

/-- What comes in some order in a list without duplicates comes in that order in the part that holds
    it. -/
theorem sublist_of_sublist {ys : List ExprId} (hxs : Sublist xs ys) (hnodup : ys.Nodup)
    (hws : Sublist ws ys) (hmem : ∀ w ∈ ws, w ∈ xs) : Sublist ws xs := by
  have hpart : ys.filter (· ∈ xs) = xs := by
    refine (hnodup.perm_iff_eq_of_sublist filter_sublist hxs).1 ?_
    refine (perm_ext_iff_of_nodup (hnodup.filter _) (hnodup.sublist hxs)).2 fun a => ?_
    simpa using fun ha => hxs.subset ha
  have hfilter := hws.filter (· ∈ xs)
  rwa [hpart, filter_eq_self.2 (by simpa using hmem)] at hfilter

/-- What comes before a member of the first part is in the first part. -/
theorem mem_left_of_pair_sublist {us vs : List ExprId} (h : Sublist [a, b] (us ++ vs))
    (hnodup : (us ++ vs).Nodup)
    (hb : b ∈ us) : a ∈ us := by
  obtain ⟨l, r, hlr, hl, hr⟩ := sublist_append_iff.1 h
  cases l with
  | nil =>
    rw [nil_append] at hlr
    exact absurd (hr.subset (hlr ▸ mem_pair.2 (.inr rfl))) (disjoint_of_nodup_append hnodup hb)
  | cons a' l =>
    rw [(List.cons.inj hlr).1]
    exact hl.subset mem_cons_self

/-- Two expressions do not each come before the other. -/
theorem not_pair_sublist (hnodup : xs.Nodup) (hab : Sublist [a, b] xs) : ¬Sublist [b, a] xs := by
  intro hba
  obtain ⟨us, vs, rfl, ha, hb⟩ := cons_sublist_iff.1 hab
  exact disjoint_of_nodup_append hnodup (mem_left_of_pair_sublist hba hnodup ha) (singleton_sublist.1 hb)

theorem triple_sublist {c : ExprId} (hnodup : xs.Nodup) (hab : Sublist [a, b] xs)
    (hbc : Sublist [b, c] xs) :
    Sublist [a, b, c] xs := by
  obtain ⟨us, vs, rfl, ha, hb⟩ := cons_sublist_iff.1 hab
  obtain ⟨l, r, hlr, hl, hr⟩ := sublist_append_iff.1 hbc
  cases l with
  | nil =>
    rw [nil_append] at hlr
    exact (singleton_sublist.2 ha).append (hlr ▸ hr)
  | cons b' l =>
    obtain ⟨rfl, -⟩ := List.cons.inj hlr
    exact absurd (singleton_sublist.1 hb) (disjoint_of_nodup_append hnodup (hl.subset mem_cons_self))

end Places

/-! ## What stays -/

namespace Kernel

/-- The loop that the marker closes is registered, and no inner loop iterates its blocks. -/
def Unsplit (k : Kernel) (d : ExprId) : Prop :=
  ∃ l info, (k.expr d).loop = some l ∧ k.loops.get? l.id = some info ∧ info.split = false

/-- The kernel `s` has come from `k`, and the markers that are `still` have kept their
    parameters. -/
structure Framed (still : ExprId → Prop) (k s : Kernel) : Prop where
  lists : s.Lists s.sequence
  config : s.config = k.config
  size : k.exprs.size ≤ s.exprs.size
  next : k.nextTensor ≤ s.nextTensor
  kinds : ∀ i < k.exprs.size, (s.expr i).kind = (k.expr i).kind
  tags : ∀ i < k.exprs.size, (s.expr i).loopIds = (k.expr i).loopIds
  inputs : ∀ i < k.exprs.size, (k.expr i).kind ≠ .elementwise → (s.expr i).inputs = (k.expr i).inputs
  loop : ∀ i < k.exprs.size, still i → (s.expr i).loop = (k.expr i).loop
  order : Sublist k.order s.order
  fresh : ∀ i ∈ s.order, i ∈ k.order ∨ k.exprs.size ≤ i
  produced : k.produced <+: s.produced
  makers : ∀ l ∈ s.produced, l.tensor < k.nextTensor → ∃ l0 ∈ k.produced, l0.tensor = l.tensor
  split : ∀ id info, k.loops.get? id = some info → ∃ info', s.loops.get? id = some info' ∧ info'.split = info.split

theorem Lists.self {xs : List Expr} (h : k.Lists xs) : k.Lists k.sequence := h.sequence.symm ▸ h

/-- Inserting a new expression that has been made. -/
theorem Lists.placed (h : s.Lists s.sequence) (hnew : y ∉ s.order) (hmade : y < s.exprs.size)
    (hid : (s.expr y).id = y) (hknown : ∀ t, t ∈ (s.expr y).inputs ∨ t ∈ (s.expr y).outputs → t.id < s.nextTensor)
    (hmark : ∀ m, mark = some m → m ∈ s.order) : (Edit.placed y mark s).Lists (Edit.placed y mark s).sequence := by
  obtain ⟨pre, post, hsplit, hhead⟩ : ∃ pre post, s.sequence = pre ++ post ∧ post.head?.map Expr.id = mark := by
    cases mark with
    | none => exact ⟨s.sequence, [], (append_nil _).symm, rfl⟩
    | some m =>
      obtain ⟨x, hx, rfl⟩ := h.mem_order.1 (hmark m rfl)
      obtain ⟨pre, post, hsplit⟩ := append_of_mem hx
      exact ⟨pre, x :: post, hsplit, rfl⟩
  have hplace := (hsplit ▸ h).place (y := s.expr y) (by rw [hid]) (by rw [hid]; exact hmade)
    (fun x hx hxy => hnew (h.mem_order.2 ⟨x, hsplit ▸ hx, hxy.trans hid⟩)) hknown
  rw [hid, hhead] at hplace
  exact hplace.self

theorem Lists.lt_size {xs : List Expr} (h : k.Lists xs) (hi : i ∈ k.order) : i < k.exprs.size := by
  obtain ⟨x, hx, rfl⟩ := h.mem_order.1 hi
  exact h.made x hx

theorem lt_size_of_marker (h : (k.expr e).kind.isMarker = true) : e < k.exprs.size :=
  lt_size_of_kind_ne fun hkind => by
    rw [hkind] at h
    cases h

/-- What a closing marker that finds its opening one looks like. -/
theorem of_loopBeginOf_ok (h : k.loopBeginOf e = .ok b) :
    (k.expr e).kind = .loopEnd ∧ ∃ tie p rest, (k.expr e).inputs.getLast? = some tie ∧
      k.producers tie.id = p :: rest ∧ (k.expr p.expr).kind = .loopBegin ∧ p.expr = b := by
  unfold loopBeginOf at h
  dsimp only at h
  split at h
  · next tie hkind htie =>
    split at h
    · next p rest hp =>
      split at h
      · next hopens =>
        cases h
        exact ⟨hkind, tie, p, rest, htie, hp, hopens, rfl⟩
      · cases h
    · cases h
  · cases h

theorem loopBeginOf_eq (hkind : (k.expr e).kind = .loopEnd) {tie : Tensor}
    (htie : (k.expr e).inputs.getLast? = some tie) {p : Port} {rest : List Port} (hp : k.producers tie.id = p :: rest)
    (hopens : (k.expr p.expr).kind = .loopBegin) : k.loopBeginOf e = .ok p.expr := by
  unfold loopBeginOf
  simp only [hkind, htie, hp, hopens, if_true]

namespace Framed

variable {still still' : ExprId → Prop} {u : Kernel}

theorem refl (hk : k.Lists k.sequence) : Framed still k k where
  lists := hk
  config := rfl
  size := Nat.le_refl _
  next := Nat.le_refl _
  kinds _ _ := rfl
  tags _ _ := rfl
  inputs _ _ _ := rfl
  loop _ _ _ := rfl
  order := Sublist.refl _
  fresh _ hi := .inl hi
  produced := prefix_refl _
  makers l hl _ := ⟨l, hl, rfl⟩
  split _ info hinfo := ⟨info, hinfo, rfl⟩

section

variable (h : Framed still k s)

include h

theorem trans (h' : Framed still' s u) (hstill : ∀ i, still i → still' i) : Framed still k u where
  lists := h'.lists
  config := h'.config.trans h.config
  size := Nat.le_trans h.size h'.size
  next := Nat.le_trans h.next h'.next
  kinds i hi := (h'.kinds i (Nat.lt_of_lt_of_le hi h.size)).trans (h.kinds i hi)
  tags i hi := (h'.tags i (Nat.lt_of_lt_of_le hi h.size)).trans (h.tags i hi)
  inputs i hi hkind :=
    (h'.inputs i (Nat.lt_of_lt_of_le hi h.size) (by rw [h.kinds i hi]; exact hkind)).trans (h.inputs i hi hkind)
  loop i hi hs := (h'.loop i (Nat.lt_of_lt_of_le hi h.size) (hstill i hs)).trans (h.loop i hi hs)
  order := h.order.trans h'.order
  fresh i hi := by
    rcases h'.fresh i hi with hi | hi
    · exact h.fresh i hi
    · exact .inr (Nat.le_trans h.size hi)
  produced := h.produced.trans h'.produced
  makers l hl hlt := by
    obtain ⟨l', hl', htensor⟩ := h'.makers l hl (Nat.lt_of_lt_of_le hlt h.next)
    rw [← htensor] at hlt ⊢
    exact h.makers l' hl' hlt
  split id info hinfo := by
    obtain ⟨info', hinfo', hsplit⟩ := h.split id info hinfo
    obtain ⟨info'', hinfo'', hsplit'⟩ := h'.split id info' hinfo'
    exact ⟨info'', hinfo'', hsplit'.trans hsplit⟩

theorem imp (hstill : ∀ i, still' i → still i) : Framed still' k s :=
  { h with loop := fun i hi hs => h.loop i hi (hstill i hs) }

/-- What has come in some order came in that order, if it was there. -/
theorem sublist (hws : Sublist ws s.order) (hmem : ∀ w ∈ ws, w ∈ k.order) : Sublist ws k.order :=
  sublist_of_sublist h.order (h.lists.order ▸ h.lists.nodup) hws hmem

theorem unsplit (hd : d < k.exprs.size) (hstill : still d) (hu : k.Unsplit d) : s.Unsplit d := by
  obtain ⟨l, info, hl, hinfo, hno⟩ := hu
  obtain ⟨info', hinfo', hsame⟩ := h.split l.id info hinfo
  exact ⟨l, info', (h.loop d hd hstill).trans hl, hinfo', hsame.trans hno⟩

/-! ### The edits of the pass -/

/-- Making tensors, expressions outside the sequence and loops. -/
theorem congr (config : u.config = s.config) (order : u.order = s.order)
    (consumed : u.consumed = s.consumed) (produced : u.produced = s.produced)
    (size : s.exprs.size ≤ u.exprs.size) (next : s.nextTensor ≤ u.nextTensor)
    (read : ∀ i < s.exprs.size, u.expr i = s.expr i)
    (split : ∀ id info, s.loops.get? id = some info → ∃ info', u.loops.get? id = some info' ∧
    info'.split = info.split) :
    Framed still k u := by
  refine h.trans ?_ fun _ (hi : still _) => hi
  exact {
    lists := (h.lists.congr order consumed produced size next fun x hx => read x.id (h.lists.made x hx)).self
    config, size, next, split
    kinds := fun i hi => by rw [read i hi]
    tags := fun i hi => by rw [read i hi]
    inputs := fun i hi _ => by rw [read i hi]
    loop := fun i hi _ => by rw [read i hi]
    order := by rw [order]
    fresh := fun i hi => .inl (order ▸ hi)
    produced := produced.symm ▸ prefix_refl _
    makers := fun l hl _ => ⟨l, produced ▸ hl, rfl⟩ }

/-- Changing an expression in anything but its number, its kind, its tags and its operands. -/
theorem modifyExpr (hid : (f (s.expr i)).id = (s.expr i).id)
    (hkind : (f (s.expr i)).kind = (s.expr i).kind) (htags : (f (s.expr i)).loopIds = (s.expr i).loopIds)
    (hin : (f (s.expr i)).inputs = (s.expr i).inputs) (hout : (f (s.expr i)).outputs = (s.expr i).outputs)
    (hloop : still i → i < k.exprs.size → (f (s.expr i)).loop = (s.expr i).loop) :
    Framed still k { s with exprs := s.exprs.modify i f } := by
  refine { h with
    lists := ?_
    size := by simpa using h.size
    kinds := fun j hj => (field_modify Expr.kind hkind j).trans (h.kinds j hj)
    tags := fun j hj => (field_modify Expr.loopIds htags j).trans (h.tags j hj)
    inputs := fun j hj hne => (field_modify Expr.inputs hin j).trans (h.inputs j hj hne)
    loop := fun j hj hs => ?_ }
  · by_cases hi : i ∈ s.order
    · obtain ⟨x, hx, rfl⟩ := h.lists.mem_order.1 hi
      rw [h.lists.read x hx] at hid hin hout
      obtain ⟨pre, post, hsplit⟩ := append_of_mem hx
      exact ((hsplit ▸ h.lists).modify hid hin hout).self
    · exact (h.lists.modify_other f fun x hx hxi => hi (h.lists.mem_order.2 ⟨x, hx, hxi⟩)).self
  · refine Eq.trans ?_ (h.loop j hj hs)
    by_cases hji : j = i
    · subst hji
      exact field_modify Expr.loop (hloop hs hj) j
    · exact congrArg Expr.loop ((expr_modify s i j f).trans (if_neg fun h => hji h.1))

/-- Inserting a new expression. -/
theorem place (hnew : y ∉ s.order) (hfresh : k.exprs.size ≤ y) (hmade : y < s.exprs.size)
    (hid : (s.expr y).id = y) (hknown : ∀ t, t ∈ (s.expr y).inputs ∨ t ∈ (s.expr y).outputs → t.id < s.nextTensor)
    (hmark : ∀ m, mark = some m → m ∈ s.order) (hout : ∀ t ∈ (s.expr y).outputs, k.nextTensor ≤ t.id) :
    Framed still k (Edit.placed y mark s) :=
  { h with
    lists := h.lists.placed hnew hmade hid hknown hmark
    order := h.order.trans (sublist_place y mark s.order)
    fresh := fun i hi => by
      rcases Exact.mem_place.1 hi with rfl | hi
      · exact .inr hfresh
      · exact h.fresh i hi
    produced := h.produced.trans (prefix_append _ _)
    makers := fun l hl hlt => by
      rcases mem_append.1 hl with hl | hl
      · exact h.makers l hl hlt
      · obtain ⟨-, -, t, ht, htensor⟩ := Edit.mem_links.1 hl
        exact absurd hlt (Nat.not_lt.2 (htensor ▸ hout t (mem_of_getElem? ht))) }

/-- Giving an input of an elementwise expression a fresh tensor. -/
theorem rewire (hx : x ∈ s.sequence) (hkind : x.kind = .elementwise) {i : Nat}
    {old new : Tensor} (hold : x.inputs[i]? = some old) (hnew : new.id < s.nextTensor) :
    Framed still k (Lists.rewired s x i old new) := by
  obtain ⟨pre, post, hsplit⟩ := append_of_mem hx
  have hlists := (hsplit ▸ h.lists).replaceInput hold hnew
  have hread : ∀ j, (Lists.rewired s x i old new).expr j =
      if j = x.id ∧ j < s.exprs.size then { s.expr j with inputs := (s.expr j).inputs.set i new } else s.expr j :=
    fun j => expr_modify s x.id j _
  refine { h with
    lists := hlists.2.self
    size := by simpa [Lists.rewired] using h.size
    kinds := fun j hj => (field_modify Expr.kind rfl j).trans (h.kinds j hj)
    tags := fun j hj => (field_modify Expr.loopIds rfl j).trans (h.tags j hj)
    inputs := fun j hj hne => ?_
    loop := fun j hj hs => (field_modify Expr.loop rfl j).trans (h.loop j hj hs) }
  rw [hread j, if_neg]
  · exact h.inputs j hj hne
  · rintro ⟨rfl, -⟩
    refine hne ?_
    rw [← h.kinds x.id hj, h.lists.read x hx, hkind]

end

/-! ### Pairs of markers -/

theorem producers_of_prefix (h : k.produced <+: s.produced) (t : TensorId) :
    k.producers t <+: s.producers t := by
  obtain ⟨more, hmore⟩ := h
  rw [producers, producers, ← hmore, filter_append, map_append]
  exact prefix_append _ _

/-- A marker of the kernel finds no other opening marker than before. -/
theorem of_loopBeginOf (h : Framed still k s) (hk : k.Lists k.sequence) (he : e ∈ k.order)
    (hb : s.loopBeginOf e = .ok b) : k.loopBeginOf e = .ok b := by
  obtain ⟨hkind, tie, p, rest, htie, hp, hopens, rfl⟩ := of_loopBeginOf_ok hb
  obtain ⟨x, hx, rfl⟩ := hk.mem_order.1 he
  have hkind' : (k.expr x.id).kind = .loopEnd := (h.kinds x.id (hk.made x hx)).symm.trans hkind
  rw [h.inputs x.id (hk.made x hx) (by rw [hkind']; decide)] at htie
  have hknown : tie.id < k.nextTensor := hk.known x hx tie (.inl (hk.read x hx ▸ mem_of_getLast? htie))
  have hmade : ∃ l ∈ s.produced, l.tensor = tie.id := by
    have hmem : p ∈ s.producers tie.id := hp ▸ mem_cons_self
    obtain ⟨l, hl, -⟩ := mem_map.1 hmem
    exact ⟨l, (mem_filter.1 hl).1, of_decide_eq_true (mem_filter.1 hl).2⟩
  obtain ⟨l, hl, htensor⟩ := hmade
  obtain ⟨l0, hl0, htensor0⟩ := h.makers l hl (htensor ▸ hknown)
  have hne : k.producers tie.id ≠ [] :=
    ne_nil_of_mem (mem_map.2 ⟨l0, mem_filter.2 ⟨hl0, decide_eq_true (htensor0.trans htensor)⟩, rfl⟩)
  obtain ⟨q, qs, hq⟩ := exists_cons_of_ne_nil hne
  obtain ⟨more, hmore⟩ := producers_of_prefix h.produced tie.id
  rw [hq, hp] at hmore
  obtain ⟨rfl, -⟩ := List.cons.inj hmore
  refine loopBeginOf_eq hkind' htie hq ?_
  obtain ⟨y, hy, hyid, -⟩ := hk.mem_producers.1 (show q ∈ k.producers tie.id from hq ▸ mem_cons_self)
  rw [← h.kinds q.expr (hyid ▸ hk.made y hy), hopens]

end Framed

end Kernel

/-! ## Narrowing -/

namespace Tails

open Kernel (Framed)

variable {still : ExprId → Prop}

/-- The kernel in which the fill of an input has been made but not inserted. -/
def fillMade (s : Kernel) (fill : Expr) : Kernel :=
  { s with nextTensor := s.nextTensor + 1, exprs := s.exprs.push fill }

theorem Framed.fillMade (h : Framed still k s) (fill : Expr) : Framed still k (fillMade s fill) :=
  h.congr rfl rfl rfl rfl (by simp [Tails.fillMade]) (Nat.le_succ _)
    (fun i hi => (Kernel.expr_push s fill i).trans (if_neg (Nat.ne_of_lt hi))) fun _ info hinfo => ⟨info, hinfo, rfl⟩

/-- The fill of an input has been inserted. -/
theorem Framed.fillPlaced (h : Framed still k s) (hx : x ∈ s.sequence) {t : Tensor}
    (ht : t ∈ x.inputs) {fill : Expr}
    (hid : fill.id = s.exprs.size) (hin : fill.inputs = [t]) (hout : ∀ u ∈ fill.outputs, u.id = s.nextTensor) :
    Framed still k (Edit.placed s.exprs.size (some x.id) (Tails.fillMade s fill)) := by
  have hread : (Tails.fillMade s fill).expr s.exprs.size = fill := (Kernel.expr_push s fill _).trans (if_pos rfl)
  have hxorder : x.id ∈ s.order := h.lists.mem_order.2 ⟨x, hx, rfl⟩
  refine (Framed.fillMade h fill).place (fun hmem => ?_) h.size ?_ (by rw [hread, hid]) (fun u hu => ?_)
    (fun m hm => Option.some.inj hm ▸ hxorder) fun u hu => ?_
  · exact Nat.lt_irrefl _ (h.lists.lt_size hmem)
  · simp [Tails.fillMade]
  · rw [hread, hin, mem_singleton] at hu
    rcases hu with rfl | hu
    · exact Nat.lt_succ_of_lt (h.lists.known x hx u (.inl ht))
    · exact Nat.lt_succ_of_le (Nat.le_of_eq (hout u hu))
  · rw [hread] at hu
    exact Nat.le_trans h.next (Nat.le_of_eq (hout u hu).symm)

/-- An elementwise expression reads the fill in place of what it read, and the value of the fill is
    used up. -/
theorem Framed.padded (h : Framed still k s) (hx : x ∈ s.sequence) (hkind : x.kind = .elementwise)
    {port : Nat}
    {t out : Tensor} (ht : x.inputs[port]? = some t) (hout : out.id < s.nextTensor) :
    ∃ s', (do
        Edit.replaceInput x.id port out
        Edit.modifyExpr x.id fun y => { y with fills := y.fills.filter (·.1 != port) } : Edit Unit) s = .ok ⟨⟩ s' ∧
      Framed still k s' ∧ (s'.expr x.id).kind = .elementwise := by
  obtain ⟨pre, post, hsplit⟩ := append_of_mem hx
  obtain ⟨hrun, -⟩ := (hsplit ▸ h.lists).replaceInput ht hout
  refine ⟨_, bind_run_ok hrun, (h.rewire hx hkind ht hout).modifyExpr rfl rfl rfl rfl rfl fun _ _ => rfl, ?_⟩
  refine (Kernel.field_modify Expr.kind rfl x.id).trans ((Kernel.field_modify Expr.kind rfl x.id).trans ?_)
  rw [h.lists.read x hx, hkind]

/-- Padding an input of an elementwise expression. -/
theorem keeps_insertFill (x : ExprId) (port : Nat) (count : Amount) (value : UInt32) :
    Keeps (fun s => Framed still k s ∧ (s.expr x).kind = .elementwise) (insertFill x port count value) := by
  rintro s ⟨h, hkind⟩
  unfold insertFill
  rw [get_bind_run]
  cases ht : (s.expr x).input port with
  | error f => exact ⟨h, hkind⟩
  | ok t =>
    let out : Tensor := { t.toTensorType with id := s.nextTensor }
    let regs := (s.expr x).inRegs[port]?.toList
    let fill : Expr :=
      { id := s.exprs.size, kind := .fill, op := "Fill", inputs := [t], outputs := [out],
        loopIds := (s.expr x).loopIds, hasLevels := (s.expr x).hasLevels, count, fillValue := value, inRegs := regs,
        outRegs := regs }
    let P : Kernel → Prop := fun u => Framed still k u ∧ (u.expr x).kind = .elementwise
    show P (endState ((do
      Edit.insertBefore s.exprs.size (some x)
      Edit.replaceInput x port out
      Edit.modifyExpr x fun y => { y with fills := y.fills.filter (·.1 != port) } : Edit Unit) (fillMade s fill)))
    have hmade : x < s.exprs.size := Kernel.lt_size_of_kind_ne (by rw [hkind]; decide)
    have hread : (fillMade s fill).expr x = s.expr x :=
      (Kernel.expr_push s fill x).trans (if_neg (Nat.ne_of_lt hmade))
    have hnew : s.exprs.size ∉ s.order := fun hmem => Nat.lt_irrefl _ (h.lists.lt_size hmem)
    have hinsert := Edit.insertBefore_run s.exprs.size (some x) (fillMade s fill)
    rw [if_neg (show ¬(fillMade s fill).attached s.exprs.size = true from fun hatt =>
      hnew (Kernel.Exact.attached_iff.1 hatt))] at hinsert
    dsimp only at hinsert
    by_cases hx : x ∈ s.order
    · rw [show (fillMade s fill).attached x = true from Kernel.Exact.attached_iff.2 hx, if_pos rfl] at hinsert
      rw [bind_run_ok hinsert]
      obtain ⟨y, hy, rfl⟩ := h.lists.mem_order.1 hx
      rw [h.lists.read y hy] at ht hkind
      have hget : y.inputs[port]? = some t := fetch_eq_ok_iff.1 ht
      have h1 := Framed.fillPlaced h hy (mem_of_getElem? hget) (show fill.id = _ from rfl) rfl
        (by simp [fill, out])
      have hy1 : y ∈ (Edit.placed s.exprs.size (some y.id) (fillMade s fill)).sequence := by
        refine mem_map.2 ⟨y.id, ?_, hread.trans (h.lists.read y hy)⟩
        exact (sublist_place s.exprs.size (some y.id) s.order).subset hx
      obtain ⟨s', hrun, hs', hkind'⟩ := Framed.padded h1 hy1 hkind hget (show out.id < _ from Nat.lt_succ_self _)
      rw [hrun]
      exact ⟨hs', hkind'⟩
    · rw [show (fillMade s fill).attached x = false from
        Bool.eq_false_iff.2 fun hatt => hx (Kernel.Exact.attached_iff.1 hatt), if_neg Bool.false_ne_true] at hinsert
      rw [bind_run_error hinsert]
      exact ⟨Framed.fillMade h fill, (congrArg Expr.kind hread).trans hkind⟩

theorem keeps_fillPort (size : Amount) (x : ExprId) (values : List (Nat × UInt32)) (port : Nat) :
    Keeps (fun s => Framed still k s ∧ (s.expr x).kind = .elementwise) (fillPort size x values port) := by
  unfold fillPort
  split
  · exact keeps_insertFill x port size _
  · exact .pure ()

/-- Changing one expression where that does not show. -/
theorem keeps_modifyExpr (hid : ∀ x, (f x).id = x.id) (hkind : ∀ x, (f x).kind = x.kind)
    (htags : ∀ x, (f x).loopIds = x.loopIds) (hin : ∀ x, (f x).inputs = x.inputs)
    (hout : ∀ x, (f x).outputs = x.outputs) (hloop : still i → i < k.exprs.size → ∀ x, (f x).loop = x.loop) :
    Keeps (Framed still k) (Edit.modifyExpr i f) := fun _ h =>
  h.modifyExpr (hid _) (hkind _) (htags _) (hin _) (hout _) fun hs hi => hloop hs hi _

theorem keeps_modifyLoop (id : LoopId) {f : LoopInfo → LoopInfo}
    (hf : ∀ info, (f info).split = info.split) :
    Keeps (Framed still k) (Edit.modifyLoop id f) := fun s h => by
  refine h.congr rfl rfl rfl rfl (Nat.le_refl _) (Nat.le_refl _) (fun _ _ => rfl) fun i info hinfo => ?_
  refine ⟨if i = id then f info else info, ?_, ?_⟩
  · exact (LoopTable.get?_modify s.loops id i f).trans (congrArg _ hinfo)
  · split
    · exact hf info
    · rfl

/-- Narrowing changes no parameters. -/
theorem keeps_narrow (size : Amount) (x : ExprId) : Keeps (Framed still k) (narrow size x) := by
  intro s h
  unfold narrow
  rw [get_bind_run]
  split
  · next hfills =>
    have hkind : (s.expr x).kind = .elementwise := by
      simp only [readsAllLanes, Bool.and_eq_true, decide_eq_true_eq] at hfills
      exact hfills.2.1
    exact (Keeps.forM (keeps_fillPort size x _) _ s ⟨h, hkind⟩).1
  · split
    · exact h.modifyExpr rfl rfl rfl rfl rfl fun _ _ => rfl
    · exact h

theorem keeps_narrowBody (loopBegin loopEnd : Option ExprId) (size : Amount) :
    Keeps (Framed still k) (narrowBody loopBegin loopEnd size) := by
  unfold narrowBody
  split
  · exact .throw _
  · refine .get_bind fun s _ => .bind (.forM (keeps_narrow size) _) fun _ => ?_
    split
    · exact .throw _
    · exact .pure _

/-! ## Parameters -/

/-- The parameters of a marker may change if it is new or not one of those that stay. -/
theorem keeps_onParams (hi : still i → k.exprs.size ≤ i) (step : EStateM Failure LoopParams α) :
    Keeps (Framed still k) (onParams i step) := by
  have hset : ∀ l : LoopParams, Keeps (Framed still k) (Edit.modifyExpr i fun x => { x with loop := some l }) :=
    fun _ => keeps_modifyExpr (fun _ => rfl) (fun _ => rfl) (fun _ => rfl) (fun _ => rfl) (fun _ => rfl)
      fun hs hlt => absurd hlt (Nat.not_lt.2 (hi hs))
  refine .bind (Edit.keeps_ask _) fun l => ?_
  split
  · exact .bind (hset _) fun _ => .pure _
  · exact .bind (hset _) fun _ => .throw _

theorem keeps_optimize (hi : still i → k.exprs.size ≤ i) (force : Bool) :
    Keeps (Framed still k) (optimize i force) :=
  .get_bind fun _ _ => .ite (.bind (keeps_onParams hi _) fun _ => .pure _) (.pure _)

theorem keeps_scaleInner (dim size : Amount) (hi : still i → k.exprs.size ≤ i) :
    Keeps (Framed still k) (scaleInner dim size i) := by
  refine .get_bind fun s _ => .ite ?_ (.pure _)
  refine .bind (Edit.keeps_ask _) fun l => .bind (Edit.keeps_ask _) fun info => .ite ?_ (.pure _)
  refine .bind (keeps_modifyExpr (fun _ => rfl) (fun _ => rfl) (fun _ => rfl) (fun _ => rfl)
    (fun _ => rfl) fun hs hlt =>
    absurd hlt (Nat.not_lt.2 (hi hs))) fun _ => .bind (keeps_modifyLoop _ fun _ => rfl) fun _ => ?_
  exact .bind (Edit.keeps_ask _) fun b => keeps_narrowBody _ _ _

theorem keeps_shorten (hend : still loopEnd → k.exprs.size ≤ loopEnd) (l : LoopParams)
    (size : Amount) :
    Keeps (Framed still k) (shorten loopEnd l size) :=
  .bind (keeps_onParams hend _) fun _ => .bind (Edit.keeps_ask _) fun _ => keeps_modifyLoop _ fun _ => rfl

theorem keeps_buildVector (hend : still loopEnd → k.exprs.size ≤ loopEnd) (l : LoopParams)
    (size : Amount)
    (touches : Bool) : Keeps (Framed still k) (buildVector loopEnd l size touches) := by
  unfold buildVector
  split
  · exact .bind (keeps_shorten hend l size) fun _ => keeps_optimize hend _
  · exact keeps_optimize hend _

/-! ## Copying a loop -/

/-- What a walk takes before its end, and what is left. -/
theorem of_upTo {stop : Option ExprId} {taken : List ExprId}
    (h : Kernel.upTo stop xs = (taken, true)) :
    ∃ rest, xs = taken ++ rest ∧ rest.head? = stop := by
  induction xs generalizing taken with
  | nil =>
    simp only [Kernel.upTo, Prod.mk.injEq, decide_eq_true_eq] at h
    obtain ⟨rfl, rfl⟩ := h
    exact ⟨[], rfl, rfl⟩
  | cons x xs ih =>
    rw [Kernel.upTo] at h
    split at h
    · next hx =>
      obtain ⟨rfl, -⟩ := Prod.mk.inj h
      exact ⟨x :: xs, rfl, hx⟩
    · obtain ⟨rfl, hmet⟩ := Prod.mk.inj h
      obtain ⟨rest, hrest, hhead⟩ := ih (Prod.ext rfl hmet)
      exact ⟨rest, by rw [cons_append, ← hrest], hhead⟩

/-- A range is what a walk takes before its end. -/
theorem of_range? {start stop : Option ExprId} {range : List ExprId}
    (h : s.range? start stop = some range) :
    ∃ rest, s.walkFrom start = range ++ rest ∧ rest.head? = stop := by
  unfold Kernel.range? at h
  split at h
  · next hup =>
    cases h
    exact of_upTo hup
  · cases h

/-- The part `xs` of the list of `s` is followed by its image in `s'`, and nothing else has
    changed. -/
structure Duplicated (s s' : Kernel) (pre xs post : List Expr) (table : List (TensorId × Tensor))
    (copy : Expr → Expr) :
    Prop where
  copied : Copied pre xs post s.nextTensor s'.nextTensor table copy
  before : s.Lists (pre ++ xs ++ post)
  after : s'.Lists (pre ++ (xs ++ xs.map copy) ++ post)
  config : s'.config = s.config
  size : s.exprs.size ≤ s'.exprs.size
  old : ∀ i < s.exprs.size, s'.expr i = s.expr i
  new : ∀ x ∈ xs, s.exprs.size ≤ (copy x).id
  params : ∃ mapping, ∀ x ∈ xs, (copy x).loop = x.loop.map fun l => { l with id := Edit.renamed mapping l.id }
  produced : s'.produced = s.produced ++ (xs.map copy).flatMap fun y => Edit.links y.id .output y.outputs
  loops : ∀ id info, s.loops.get? id = some info → s'.loops.get? id = some info

theorem Duplicated.source {xs : List Expr} (h : Duplicated s s' pre xs post table copy)
    (hx : x ∈ xs) :
    s.expr x.id = x ∧ x.id < s.exprs.size :=
  have hmem : x ∈ pre ++ xs ++ post := mem_append_left _ (mem_append_right _ hx)
  ⟨h.before.read x hmem, h.before.made x hmem⟩

theorem Duplicated.image {xs : List Expr} (h : Duplicated s s' pre xs post table copy)
    (hx : x ∈ xs) :
    s'.expr (copy x).id = copy x ∧ (copy x).id < s'.exprs.size :=
  have hmem : copy x ∈ pre ++ (xs ++ xs.map copy) ++ post :=
    mem_append_left _ (mem_append_right _ (mem_append_right _ (mem_map_of_mem hx)))
  ⟨h.after.read _ hmem, h.after.made _ hmem⟩

/-- Registering loops again leaves the registered ones. -/
theorem of_foldlM_copyLoop_ok {done : List (LoopId × LoopId)}
    (h : ids.foldlM (Edit.copyLoop c) done s = .ok mapping s') :
    ∃ loops, s' = { s with loops } ∧ (∀ id info, s.loops.get? id = some info → loops.get? id = some info) ∧
      ∀ i ∉ ids, mapping.lookup i = done.lookup i := by
  induction ids generalizing done s with
  | nil =>
    cases h
    exact ⟨_, rfl, fun _ _ hinfo => hinfo, fun _ _ => rfl⟩
  | cons id ids ih =>
    rw [foldlM_cons] at h
    obtain ⟨done', s1, hstep, hrest⟩ := of_bind_run_ok h
    unfold Edit.copyLoop at hstep
    obtain ⟨info, -, hstep⟩ := Edit.of_ask_bind_run_ok hstep
    cases hstep
    obtain ⟨loops, rfl, hloops, hkeys⟩ := ih hrest
    refine ⟨loops, rfl, fun i info' hinfo' => hloops i info' ?_, fun i hi => ?_⟩
    · rw [← hinfo']
      exact LoopTable.get?_insert_of_isSome _ (by rw [hinfo']; rfl)
    · have hne : i ≠ id := ne_of_not_mem_cons hi
      rw [hkeys i (not_mem_of_not_mem_cons hi), lookup_cons_eq, if_neg hne, Edit.lookup_filter_ne hne]

/-- What a copied loop is made of. -/
theorem of_copyLoop_ok {tail : Tail} (h : copyLoop b d s = .ok tail s') :
    ∃ range copy s1 ids mapping s2, s.range? (some b) (s.next? d) = some range ∧
      (∀ id ∈ (s.expr d).loopIds, id ∉ ids) ∧ Edit.copyRange (some b) (s.next? d) s = .ok copy s1 ∧
      Edit.copyLoops copy ids s1 = .ok mapping s2 ∧
      Edit.insertCopy copy (s.next? d) s2 = .ok ⟨⟩ s' ∧ tail.loopBegin = copy.copyOf? b ∧
      tail.loopEnd = copy.copyOf? d := by
  unfold copyLoop at h
  rw [get_bind_run] at h
  obtain ⟨ids, hids, h⟩ := Edit.of_ask_bind_run_ok h
  obtain ⟨copy, s1, hcopy, h⟩ := of_bind_run_ok h
  obtain ⟨mapping, s2, hloops, h⟩ := of_bind_run_ok h
  obtain ⟨u, s3, hinsert, h⟩ := of_bind_run_ok h
  obtain ⟨l, -, h⟩ := Edit.of_ask_bind_run_ok h
  obtain ⟨info, -, h⟩ := Edit.of_ask_bind_run_ok h
  cases h
  cases hrange : s.range? (some b) (s.next? d) with
  | none =>
    rw [hrange] at hids
    cases hids
  | some range =>
    rw [hrange] at hids
    cases hids
    refine ⟨range, copy, s1, _, mapping, s2, rfl, fun id hid hmem => ?_, hcopy, hloops, hinsert, rfl, rfl⟩
    simp [nestedLoops, hid] at hmem

/-- A loop that is copied with its closing marker reaches from its opening marker to its closing
    one. -/
theorem exists_range (hs : s.Lists s.sequence) (hb : b ∈ s.order) (hd : d ∈ s.order) (hne : b ≠ d)
    {range : List ExprId} (hrange : s.range? (some b) (s.next? d) = some range) (hmem : range ≠ []) :
    ∃ pre B mid D post, s.sequence = pre ++ (B :: (mid ++ [D])) ++ post ∧ B.id = b ∧ D.id = d := by
  obtain ⟨B, hB, rfl⟩ := hs.mem_order.1 hb
  obtain ⟨D, hD, rfl⟩ := hs.mem_order.1 hd
  obtain ⟨pre, post, hsplit⟩ := append_of_mem hB
  rw [hsplit] at hD
  rcases mem_append.1 hD with hD | hD
  · -- the closing marker comes first, and the walk from the opening one does not meet what follows it
    obtain ⟨before, mid, rfl⟩ := append_of_mem hD
    obtain ⟨M, mid', hM⟩ := exists_cons_of_ne_nil (show mid ++ [B] ≠ [] by simp)
    have hs' : s.Lists (before ++ D :: M :: (mid' ++ post)) := by
      rw [← cons_append, ← hM]
      simpa [hsplit] using hs
    have hsB : s.Lists ((before ++ D :: mid) ++ B :: post) := hsplit ▸ hs
    obtain ⟨rest, hwalk, hhead⟩ := of_range? hrange
    obtain ⟨first, taken, rfl⟩ := exists_cons_of_ne_nil hmem
    rw [Kernel.walkFrom, hsB.behind, cons_append] at hwalk
    rw [hs'.next?] at hhead
    have hlate : M.id ∈ post.map Expr.id := by
      rw [(List.cons.inj hwalk).2]
      exact mem_append_right taken (mem_of_head? hhead)
    have hnodup := hs'.nodup
    rw [map_append, map_cons, map_cons, map_append] at hnodup
    have hnew := (nodup_cons.1 (nodup_cons.1 (nodup_append.1 hnodup).2.1).2).1
    exact absurd (mem_append_right _ hlate) hnew
  · rcases mem_cons.1 hD with rfl | hD
    · exact absurd rfl hne
    · obtain ⟨mid, rest, rfl⟩ := append_of_mem hD
      exact ⟨pre, B, mid, D, rest, by rw [hsplit]; simp, rfl, rfl⟩

/-- Giving copies loops of their own changes their tags and the table. -/
theorem of_copyLoops_ok (h : Edit.copyLoops c ids s = .ok mapping s') :
    ∃ loops, s' = ({ s with loops } : Kernel).modifyEach (fun e => e) (fun _ => Edit.retagged mapping) c.copies ∧
      (∀ id info, s.loops.get? id = some info → loops.get? id = some info) ∧ ∀ i ∉ ids, mapping.lookup i = none := by
  unfold Edit.copyLoops at h
  obtain ⟨mapping', s1, hfold, h⟩ := of_bind_run_ok h
  obtain ⟨loops, rfl, hloops, hkeys⟩ := of_foldlM_copyLoop_ok hfold
  rw [bind_run_ok (Edit.forM_modifyExpr_run (fun e => e) (fun _ => Edit.retagged mapping') c.copies _)] at h
  cases h
  exact ⟨loops, rfl, hloops, hkeys⟩

/-- A loop is copied together with its markers, and the copies of the markers are in the loops
    around it. -/
theorem exists_duplicated (hs : s.Lists s.sequence) (hb : b ∈ s.order) (hd : d ∈ s.order)
    (hne : b ≠ d) {tail : Tail}
    (hrun : copyLoop b d s = .ok tail s') (hend : tail.loopEnd ≠ none) :
    ∃ pre B mid D post table copy, B.id = b ∧ D.id = d ∧ Duplicated s s' pre (B :: (mid ++ [D])) post table copy ∧
      tail.loopBegin = some (copy B).id ∧ tail.loopEnd = some (copy D).id ∧ (copy D).loopIds = D.loopIds := by
  obtain ⟨range, c, s1, ids, mapping, s2, hrange, houter, hcopy, hloops, hinsert, hbegin, hend'⟩ := of_copyLoop_ok hrun
  have hrange' : range ≠ [] := by
    rintro rfl
    have hempty : ∃ s0, Edit.copyRange (some b) (s.next? d) s = .ok { pairs := [], tensors := [] } s0 := by
      unfold Edit.copyRange
      rw [get_bind_run, hrange]
      exact ⟨_, rfl⟩
    obtain ⟨s0, hempty⟩ := hempty
    rw [hempty] at hcopy
    cases hcopy
    exact hend hend'
  obtain ⟨pre, B, mid, D, post, hseq, rfl, rfl⟩ := exists_range hs hb hd hne hrange hrange'
  have hlist : s.Lists (pre ++ (B :: (mid ++ [D])) ++ post) := hseq ▸ hs
  have hnext : s.next? D.id = post.head?.map Expr.id :=
    Kernel.Lists.next? (show s.Lists ((pre ++ B :: mid) ++ D :: post) by simpa using hlist)
  rw [hnext] at hcopy hinsert
  have hout : ReadIn ((pre ++ post).flatMap Expr.inputIds) (pre ++ post) := fun i => mem_flatMap
  obtain ⟨names, hnames⟩ : ∃ names, names = freshNames (((B :: (mid ++ [D])).flatMap Expr.outputs).filter fun t =>
    !((pre ++ post).flatMap Expr.inputIds).contains t.id) [] s.nextTensor := ⟨_, rfl⟩
  have hwhole := Kernel.Lists.range? (show s.Lists (pre ++ B :: ((mid ++ [D]) ++ post)) by simpa using hlist)
  obtain ⟨number, exprs, hnum, hcopy'⟩ := hlist.copyRange hwhole hout hnames
  generalize hxs : B :: (mid ++ [D]) = xs at *
  have hB : B ∈ xs := by simp [← hxs]
  have hD : D ∈ xs := by simp [← hxs]
  rw [hcopy'] at hcopy
  cases hcopy
  obtain ⟨loops, rfl, hkept, hkeys⟩ := of_copyLoops_ok hloops
  obtain ⟨exprs', htag, hsize, hold, hread⟩ := hnum.retagged loops mapping
  let c : RangeCopy := { pairs := xs.map fun y => (y.id, number y.id), tensors := names.1 }
  let copy : Expr → Expr := Edit.imageOf names.1 number mapping
  have hcopied := hlist.copied hout hnames fun x _ => Edit.core_imageOf names.1 number mapping x
  obtain ⟨order, hins, hafter⟩ := hlist.insertCopies hcopied (hsize ▸ hnum.size) hold hread
    (fun x hx => hsize ▸ hnum.fresh x hx) (by rw [map_map]; exact hnum.nodup)
  have hinsert' : Edit.insertCopy c (post.head?.map Expr.id) { s with nextTensor := names.2, exprs := exprs', loops } =
      .ok ⟨⟩ s' := by
    rw [← htag]
    rw [show c.copies = xs.map fun x => number x.id from map_map] at hinsert
    exact hinsert
  have hcopies : c.copies = (xs.map copy).map Expr.id := by
    rw [show c.copies = xs.map fun x => number x.id from map_map, map_map]
    rfl
  rw [Edit.insertCopy, hcopies, hins] at hinsert'
  cases hinsert'
  refine ⟨pre, B, mid, D, post, names.1, copy, rfl, rfl, ?_, ?_, ?_, ?_⟩
  · rw [hxs]
    exact {
      copied := hcopied
      before := hlist
      after := by simpa using hafter
      config := rfl
      size := hsize ▸ hnum.size
      old := hold
      new := fun x hx => (hnum.fresh x hx).1
      params := ⟨mapping, fun _ _ => rfl⟩
      produced := rfl
      loops := hkept }
  · exact hbegin.trans (Edit.lookup_map_number hB)
  · exact hend'.trans (Edit.lookup_map_number hD)
  · rw [hlist.read D (by simp [hD])] at houter
    show D.loopIds.map (Edit.renamed mapping) = D.loopIds
    refine (map_congr_left fun id hid => ?_).trans (map_id _)
    rw [Edit.renamed, hkeys id (houter id hid)]
    rfl

/-- Copying a loop changes nothing but what follows its closing marker. -/
theorem Framed.duplicated (h : Framed still k s) {xs : List Expr}
    (hdup : Duplicated s s' pre xs post table copy) :
    Framed still k s' := by
  have horder : s.order = (pre ++ xs).map Expr.id ++ post.map Expr.id := by
    rw [hdup.before.order, map_append]
  have horder' : s'.order = (pre ++ xs).map Expr.id ++ ((xs.map copy).map Expr.id ++ post.map Expr.id) := by
    rw [hdup.after.order]
    simp
  refine h.trans ?_ fun _ (hi : still _) => hi
  exact {
    lists := hdup.after.self
    config := hdup.config
    size := hdup.size
    next := hdup.copied.fresh.le
    kinds := fun i hi => by rw [hdup.old i hi]
    tags := fun i hi => by rw [hdup.old i hi]
    inputs := fun i hi _ => by rw [hdup.old i hi]
    loop := fun i hi _ => by rw [hdup.old i hi]
    order := by
      rw [horder, horder']
      exact Sublist.append_left (sublist_append_right _ _) _
    fresh := fun i hi => by
      rw [horder', map_map] at hi
      rw [horder, mem_append]
      rcases mem_append.1 hi with hi | hi
      · exact .inl (.inl hi)
      · rcases mem_append.1 hi with hi | hi
        · obtain ⟨x, hx, rfl⟩ := mem_map.1 hi
          exact .inr (hdup.new x hx)
        · exact .inl (.inr hi)
    produced := by
      rw [hdup.produced]
      exact prefix_append _ _
    makers := fun l hl hlt => by
      rw [hdup.produced] at hl
      rcases mem_append.1 hl with hl | hl
      · exact ⟨l, hl, rfl⟩
      · obtain ⟨y, hy, hl⟩ := mem_flatMap.1 hl
        obtain ⟨x, hx, rfl⟩ := mem_map.1 hy
        obtain ⟨-, -, t, ht, htensor⟩ := Edit.mem_links.1 hl
        rw [hdup.copied.outputs hx, getElem?_map] at ht
        obtain ⟨u, hu, rfl⟩ := Option.map_eq_some_iff.1 ht
        rcases hdup.copied.rename_id u with hle | hid
        · exact absurd hlt (Nat.not_lt.2 (htensor ▸ hle))
        · refine ⟨⟨u.id, ⟨x.id, .output, l.port.index⟩⟩, (hdup.before.produced _).2 ⟨x, ?_, ?_⟩,
            (htensor.trans hid).symm⟩
          · exact mem_append_left _ (mem_append_right _ hx)
          · exact Edit.mem_links.2 ⟨rfl, rfl, u, hu, rfl⟩
    split := fun id info hinfo => ⟨info, hdup.loops id info hinfo, rfl⟩ }

/-! ## Building a tail -/

theorem exists_append_behind (h : Kernel.behind b xs ≠ []) :
    ∃ pre, xs = pre ++ b :: Kernel.behind b xs := by
  induction xs with
  | nil => exact absurd rfl h
  | cons x xs ih =>
    rw [Kernel.behind] at h ⊢
    split
    · next hx => exact ⟨[], by rw [hx]; rfl⟩
    · next hx =>
      rw [if_neg hx] at h
      obtain ⟨pre, hpre⟩ := ih h
      exact ⟨x :: pre, by rw [cons_append, ← hpre]⟩

/-- Only markers between those of the tail are scaled. -/
theorem Framed.scaleInners (h : Framed still k s) {dim : Amount}
    (hrun : Tails.scaleInners ⟨some b, some e, id⟩ dim size s = .ok ⟨⟩ s')
    (hinside : ∀ i, Sublist [b, i, e] s.order → still i → k.exprs.size ≤ i) : Framed still k s' := by
  unfold Tails.scaleInners at hrun
  dsimp only at hrun
  rw [get_bind_run] at hrun
  cases hup : Kernel.upTo (some e) (Kernel.behind b s.order) with
  | mk inside met =>
    rw [hup] at hrun
    obtain ⟨u, s1, hscale, hmet⟩ := of_bind_run_ok hrun
    cases met with
    | false => cases hmet
    | true =>
      cases hmet
      obtain ⟨rest, hrest, hhead⟩ := of_upTo hup
      obtain ⟨rest', rfl⟩ : ∃ rest', rest = e :: rest' := by
        cases rest with
        | nil => cases hhead
        | cons r rs => exact ⟨rs, by rw [Option.some.inj hhead]⟩
      obtain ⟨pre, hpre⟩ : ∃ pre, s.order = pre ++ b :: Kernel.behind b s.order :=
        exists_append_behind (by rw [hrest]; simp)
      refine (Keeps.forM_mem fun i hi => keeps_scaleInner dim size (hinside i ?_)).of_ok h hscale
      rw [hpre, hrest]
      refine Sublist.trans ?_ (sublist_append_right pre _)
      refine Sublist.cons_cons b (Sublist.append (singleton_sublist.2 hi) ?_)
      exact singleton_sublist.2 mem_cons_self

/-- The kernel with other parameters at a marker. -/
def setParams (e : ExprId) (l : LoopParams) (s : Kernel) : Kernel :=
  { s with exprs := s.exprs.modify e fun x => { x with loop := some l } }

theorem expr_setParams_of_ne (hne : i ≠ e) (l : LoopParams) (s : Kernel) :
    (setParams e l s).expr i = s.expr i :=
  (Kernel.expr_modify s e i _).trans (if_neg fun h => hne h.1)

theorem loop_setParams (he : e < s.exprs.size) (l : LoopParams) :
    ((setParams e l s).expr e).loop = some l := by
  rw [setParams, Kernel.expr_modify, if_pos ⟨rfl, he⟩]

theorem of_params_ok (h : x.params = .ok l) : x.loop = some l := by
  unfold Expr.params at h
  split at h
  · next hl => rw [hl, Except.ok.inj h]
  · cases h

theorem of_onParams_ok {step : EStateM Failure LoopParams α} {a : α}
    (h : onParams e step s = .ok a s') :
    ∃ l l', (s.expr e).loop = some l ∧ step l = .ok a l' ∧ s' = setParams e l' s := by
  unfold onParams at h
  obtain ⟨l, hl, h⟩ := Edit.of_ask_bind_run_ok h
  cases hstep : step l with
  | ok a' l' =>
    rw [hstep] at h
    cases h
    exact ⟨l, l', of_params_ok hl, hstep, rfl⟩
  | error f l' =>
    rw [hstep] at h
    cases h

/-- What building a tail comes to: finding the loop, making the tail, working on what is inside it,
    and setting the parameters of its closing marker. -/
theorem of_buildTail_ok (hrun : buildTail d vector size offsets touches s = .ok ⟨⟩ s') :
    ∃ b l info tail s1 b' e' s2 lt ld, s.loopBeginOf d = .ok b ∧ (s.expr d).loop = some l ∧
      s.loops.get? l.id = some info ∧ tailOf vector b d l.id s = .ok tail s1 ∧
      tail.loopBegin = some b' ∧ tail.loopEnd = some e' ∧
      (∀ (still : ExprId → Prop) (k : Kernel), Framed still k s1 →
        (info.split = true → ∀ i, Sublist [b', i, e'] s1.order → still i → k.exprs.size ≤ i) →
        Framed still k s2) ∧
      (s2.expr e').loop = some lt ∧ (s2.expr d).loop = some ld ∧
      optimize e' touches (setParams e' { lt with
        workAmount := size
        increment := size
        finalOffsets := offsets
        hasOuterLoop := ld.hasOuterLoop
        once := false } s2) = .ok ⟨⟩ s' := by
  unfold buildTail at hrun
  obtain ⟨b, hb, hrun⟩ := Edit.of_ask_bind_run_ok hrun
  obtain ⟨l, hl, hrun⟩ := Edit.of_ask_bind_run_ok hrun
  obtain ⟨info, hinfo, hrun⟩ := Edit.of_ask_bind_run_ok hrun
  obtain ⟨tail, s1, htail, hrun⟩ := of_bind_run_ok hrun
  obtain ⟨u, s1', hmodify, hrun⟩ := of_bind_run_ok hrun
  obtain ⟨s2', hscaled, hrun⟩ : ∃ s2', (if info.split = true then scaleInners tail info.dim size s1' = .ok ⟨⟩ s2'
      else s1' = s2') ∧ finishTail tail d size offsets touches s2' = .ok ⟨⟩ s' := by
    split at hrun
    · next hsplit =>
      obtain ⟨u', s2', hscaled, hrun⟩ := of_bind_run_ok hrun
      exact ⟨s2', by rw [if_pos hsplit]; exact hscaled, hrun⟩
    · next hsplit => exact ⟨s1', by rw [if_neg hsplit], hrun⟩
  unfold finishTail at hrun
  obtain ⟨u', s2, hnarrow, hrun⟩ := of_bind_run_ok hrun
  obtain ⟨first, last, id⟩ := tail
  cases first with
  | none => cases hnarrow
  | some b' =>
    cases last with
    | none => cases hrun
    | some e' =>
      obtain ⟨ld, hld, hrun⟩ := Edit.of_ask_bind_run_ok hrun
      obtain ⟨u'', s3, hset, hrun⟩ := of_bind_run_ok hrun
      obtain ⟨lt, lt', hlt, hstep, rfl⟩ := of_onParams_ok hset
      cases hstep
      refine ⟨b, l, info, _, s1, b', e', s2, lt, ld, hb, of_params_ok hl, LoopTable.info_eq_ok.1 hinfo, htail, rfl, rfl,
        fun still k hk hinside => ?_, hlt, of_params_ok hld, hrun⟩
      have hk1 : Framed still k s1' := (keeps_modifyLoop
        (f := fun i => { i with workAmount := size, increment := size }) id fun _ => rfl).of_ok hk hmodify
      cases hmodify
      refine (keeps_narrowBody (some b') (some e') size).of_ok ?_ hnarrow
      split at hscaled
      · next hsplit => exact Framed.scaleInners hk1 hscaled (hinside hsplit)
      · exact hscaled ▸ hk1

theorem mem_order_of_loopBeginOf (hs : s.Lists s.sequence) (hb : s.loopBeginOf d = .ok b) :
    b ∈ s.order ∧ b ≠ d := by
  obtain ⟨hkind, tie, p, rest, -, hp, hopens, rfl⟩ := Kernel.of_loopBeginOf_ok hb
  constructor
  · obtain ⟨x, hx, hid, -⟩ := hs.mem_producers.1 (show p ∈ s.producers tie.id from hp ▸ mem_cons_self)
    exact hid ▸ hs.mem_order.2 ⟨x, hx, rfl⟩
  · intro heq
    rw [heq, hkind] at hopens
    cases hopens

/-- What lies between the markers of a copy was copied. -/
theorem Duplicated.inside {mid : List Expr} {B D : Expr}
    (h : Duplicated s s' pre (B :: (mid ++ [D])) post table copy)
    (hi : Sublist [(copy B).id, i, (copy D).id] s'.order) : s.exprs.size ≤ i := by
  let us := (pre ++ (B :: (mid ++ [D]))).map Expr.id
  let cs := ((B :: (mid ++ [D])).map copy).map Expr.id
  let vs := post.map Expr.id
  have horder : s'.order = us ++ (cs ++ vs) := by
    rw [h.after.order]
    simp [us, cs, vs]
  have hnodup : (us ++ (cs ++ vs)).Nodup := horder ▸ h.after.order ▸ h.after.nodup
  have hB : (copy B).id ∈ cs := by simp [cs]
  have hD : (copy D).id ∈ cs := by simp [cs]
  rw [horder] at hi
  have hmem : i ∈ us ++ (cs ++ vs) := hi.subset (by simp)
  have hus : i ∉ us := fun hius => by
    have hpair : Sublist [(copy B).id, i] (us ++ (cs ++ vs)) :=
      (Sublist.cons_cons _ (Sublist.cons_cons _ (nil_sublist _))).trans hi
    exact disjoint_of_nodup_append hnodup (mem_left_of_pair_sublist hpair hnodup hius) (mem_append_left _ hB)
  have hpair : Sublist [i, (copy D).id] ((us ++ cs) ++ vs) := by
    rw [append_assoc]
    exact (sublist_cons_self _ _).trans hi
  rw [← append_assoc] at hnodup
  rcases mem_append.1 (mem_left_of_pair_sublist hpair hnodup (mem_append_right us hD)) with hi | hi
  · exact absurd hi hus
  · obtain ⟨y, hy, rfl⟩ := mem_map.1 hi
    obtain ⟨x, hx, rfl⟩ := mem_map.1 hy
    exact h.new x hx

theorem of_evaluateOnce_ok {l' : LoopParams} (h : LoopParams.evaluateOnce force l = .ok changed l') :
    l' = l.optimized true force := by
  rw [LoopParams.evaluateOnce_eq] at h
  split at h
  · cases h
  · cases h
    rfl

/-- Dropping the trip counter changes one marker. -/
theorem of_optimize_ok (hl : (s.expr e).loop = some l) (he : e < s.exprs.size)
    (hrun : optimize e force s = .ok ⟨⟩ s') :
    (s'.expr e).loop = some (l.optimized s.config.evaluateOnce force) ∧ ∀ i, i ≠ e → s'.expr i = s.expr i := by
  unfold optimize at hrun
  rw [get_bind_run] at hrun
  split at hrun
  · next honce =>
    obtain ⟨changed, s1, hset, hrun⟩ := of_bind_run_ok hrun
    cases hrun
    obtain ⟨l0, l1, hl0, hstep, rfl⟩ := of_onParams_ok hset
    cases hl.symm.trans hl0
    rw [of_evaluateOnce_ok hstep, honce]
    exact ⟨loop_setParams he _, fun i hi => expr_setParams_of_ne hi _ _⟩
  · next honce =>
    cases hrun
    rw [Bool.eq_false_iff.2 honce]
    exact ⟨hl, fun _ _ => rfl⟩

/-- A vector loop without the rest. -/
theorem of_buildVector_ok (hl : (s.expr d).loop = some l) (hd : d < s.exprs.size)
    (hrun : buildVector d l size touches s = .ok ⟨⟩ s') :
    (s'.expr d).loop = some (if size = 0 then l.optimized s.config.evaluateOnce touches
      else (l.shortened size).optimized s.config.evaluateOnce true) := by
  unfold buildVector at hrun
  by_cases hsize : size = 0
  · rw [if_neg (not_not.2 hsize), decide_eq_false (not_not.2 hsize), Bool.false_or] at hrun
    rw [if_pos hsize]
    exact (of_optimize_ok hl hd hrun).1
  · rw [if_pos hsize, decide_eq_true hsize, Bool.true_or] at hrun
    rw [if_neg hsize]
    obtain ⟨u, s1, hshort, hrun⟩ := of_bind_run_ok hrun
    unfold shorten at hshort
    obtain ⟨u', s0, hset, hshort⟩ := of_bind_run_ok hshort
    obtain ⟨info, -, hshort⟩ := Edit.of_ask_bind_run_ok hshort
    obtain ⟨l0, l1, hl0, hstep, rfl⟩ := of_onParams_ok hset
    cases hl.symm.trans hl0
    cases hstep
    cases hshort
    have hmade : d < (setParams d (l.shortened size) s).exprs.size := by simpa [setParams] using hd
    exact (of_optimize_ok (s := { setParams d (l.shortened size) s with
      loops := s.loops.modify l.id fun i => { i with workAmount := l.workAmount - size } })
      (loop_setParams hd _) hmade hrun).1

/-- What splitting a loop comes to. -/
theorem of_split_ok (hrun : split d s = .ok changed s') :
    ∃ l, (s.expr d).loop = some l ∧ ((l.once || l.workAmount = 0 || !l.isStatic) = true ∧ s' = s ∨
      ∃ size touches s1, (l.once || l.workAmount = 0 || !l.isStatic) = false ∧
        remainder l.workAmount l.increment = .ok size ∧ touchesBuffer s (s.expr d) l = .ok touches ∧
        (if l.workAmount ≥ l.increment then buildVector d l size touches s = .ok ⟨⟩ s1 else s1 = s) ∧
        if size ≠ 0 then buildTail d (l.workAmount ≥ l.increment) size l.finalOffsets touches s1 = .ok ⟨⟩ s'
        else s' = s1) := by
  unfold split at hrun
  obtain ⟨l, hl, hrun⟩ := Edit.of_ask_bind_run_ok hrun
  refine ⟨l, of_params_ok hl, ?_⟩
  split at hrun
  · next hstays =>
    cases hrun
    exact .inl ⟨hstays, rfl⟩
  · next hstays =>
    obtain ⟨size, hsize, hrun⟩ := Edit.of_ask_bind_run_ok hrun
    obtain ⟨touches, htouches, hrun⟩ := Edit.of_ask_bind_run_ok hrun
    have hvector : ∃ s1, (if l.workAmount ≥ l.increment then buildVector d l size touches s = .ok ⟨⟩ s1 else s1 = s) ∧
        (do
          if size ≠ 0 then buildTail d (l.workAmount ≥ l.increment) size l.finalOffsets touches
          return true : Edit Bool) s1 = .ok changed s' := by
      by_cases hvec : l.workAmount ≥ l.increment
      · rw [decide_eq_true hvec, if_pos rfl] at hrun
        obtain ⟨u, s1, hbuild, hrun⟩ := of_bind_run_ok hrun
        exact ⟨s1, by rw [if_pos hvec]; exact hbuild, by rw [decide_eq_true hvec]; exact hrun⟩
      · rw [decide_eq_false hvec, if_neg Bool.false_ne_true] at hrun
        exact ⟨s, by rw [if_neg hvec], by rw [decide_eq_false hvec]; exact hrun⟩
    obtain ⟨s1, hvector, hrun⟩ := hvector
    refine .inr ⟨size, touches, s1, Bool.eq_false_iff.2 hstays, hsize, htouches, hvector, ?_⟩
    split at hrun
    · next hrest =>
      obtain ⟨u, s2, hbuild, hrun⟩ := of_bind_run_ok hrun
      cases hrun
      rw [if_pos hrest]
      exact hbuild
    · next hrest =>
      cases hrun
      rw [if_neg hrest]

/-- Building the tail of a loop. -/
theorem Framed.buildTail (h : Framed still k s) (hd : d ∈ s.order) (hstill : ¬still d)
    (hinside : ∀ b, s.loopBeginOf d = .ok b → s.Unsplit d ∨
      ∀ i, Sublist [b, i, d] s.order → still i → k.exprs.size ≤ i)
    (hrun : Tails.buildTail d vector size offsets touches s = .ok ⟨⟩ s') : Framed still k s' := by
  obtain ⟨b, l, info, tail, s1, b', e', s2, lt, ld, hb, hl, hinfo, htail, hbegin, hend, hwork, -, -, hopt⟩ :=
    of_buildTail_ok hrun
  have hset : (still e' → k.exprs.size ≤ e') → Framed still k s2 → Framed still k s' := by
    intro he' hk2
    refine (keeps_optimize he' touches).of_ok (hk2.modifyExpr rfl rfl rfl rfl rfl fun hs hlt => ?_) hopt
    exact absurd hlt (Nat.not_lt.2 (he' hs))
  cases vector with
  | false =>
    cases htail
    cases hbegin
    cases hend
    refine hset (fun hs => absurd hs hstill) (hwork still k h fun hsplit => ?_)
    rcases hinside _ hb with ⟨l', info', hl', hinfo', hunsplit⟩ | hfree
    · cases hl.symm.trans hl'
      cases hinfo.symm.trans hinfo'
      exact absurd (hsplit.symm.trans hunsplit) (by decide)
    · exact hfree
  | true =>
    obtain ⟨hbmem, hbne⟩ := mem_order_of_loopBeginOf h.lists hb
    obtain ⟨pre, B, mid, D, post, table, copy, rfl, rfl, hdup, hbegin', hend', -⟩ :=
      exists_duplicated h.lists hbmem hd hbne htail (by rw [hend]; exact Option.some_ne_none _)
    cases hbegin.symm.trans hbegin'
    cases hend.symm.trans hend'
    have hnew : k.exprs.size ≤ (copy D).id := Nat.le_trans h.size (hdup.new D (by simp))
    exact hset (fun _ => hnew) (hwork still k (Framed.duplicated h hdup) fun _ i hi _ =>
      Nat.le_trans h.size (hdup.inside hi))

/-- Splitting the loop of one closing marker. -/
theorem Framed.split (h : Framed still k s) (hd : d ∈ s.order) (hstill : ¬still d)
    (hinside : ∀ b, s.loopBeginOf d = .ok b → s.Unsplit d ∨
      ∀ i, Sublist [b, i, d] s.order → still i → k.exprs.size ≤ i) (hrun : Tails.split d s = .ok changed s') :
    Framed still k s' := by
  obtain ⟨l, hl, hcases⟩ := of_split_ok hrun
  rcases hcases with ⟨-, rfl⟩ | ⟨size, touches, s1, -, -, -, hvector, htail⟩
  · exact h
  have hmade : d < s.exprs.size := h.lists.lt_size hd
  have hs1 : Framed still k s1 ∧ Framed (fun i => i ≠ d) s s1 ∧
      ∃ l1, (s1.expr d).loop = some l1 ∧ l1.id = l.id := by
    split at hvector
    · refine ⟨(keeps_buildVector (fun hs => absurd hs hstill) l size touches).of_ok h hvector,
        (keeps_buildVector (fun hs => absurd rfl hs) l size touches).of_ok (.refl h.lists) hvector, ?_⟩
      refine ⟨_, of_buildVector_ok hl hmade hvector, ?_⟩
      split <;> rw [LoopParams.id_optimized]
      rfl
    · subst hvector
      exact ⟨h, .refl h.lists, l, hl, rfl⟩
  obtain ⟨hk1, hstep, l1, hl1, hid⟩ := hs1
  split at htail
  · refine Framed.buildTail hk1 (hstep.order.subset hd) hstill (fun b hb => ?_) htail
    have hb' := hstep.of_loopBeginOf h.lists hd hb
    refine (hinside b hb').imp (fun hunsplit => ?_) fun hfree i hi hs => ?_
    · obtain ⟨l', info, hl', hinfo, hno⟩ := hunsplit
      cases hl.symm.trans hl'
      obtain ⟨info', hinfo', hsame⟩ := hstep.split l.id info hinfo
      exact ⟨l1, info', hl1, hid ▸ hinfo', hsame.trans hno⟩
    · have hmem : i ∈ s1.order := hi.subset (by simp)
      rcases hstep.fresh i hmem with hmem | hnew
      · refine hfree i (hstep.sublist hi ?_) hs
        simpa using ⟨(mem_order_of_loopBeginOf h.lists hb').1, hmem, hd⟩
      · exact Nat.le_trans h.size hnew
  · exact htail ▸ hk1

end Tails

end KernelLoops
