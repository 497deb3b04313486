import KernelLoops.Proofs.Brackets
import KernelLoops.Proofs.Growth

set_option autoImplicit false

/-! # Loops under new names

While tails are split, loops are copied under fresh names and their amounts change, at the closing
marker and in the table. `Relabels` says what became of a piece of code as far as tags, names and
the table are concerned; it composes the way the pass goes through the code. -/

namespace KernelLoops

open List

variable {b e x : Expr} {xs : List Expr} {ids' : List LoopId}

/-- The expression is tagged with registered loops, and closes one if it closes any. -/
structure Expr.Tagged (x : Expr) (loops : LoopTable) : Prop where
  tags : ∀ id ∈ x.loopIds, id.isSentinel = false → (loops.get? id).isSome
  params : x.kind = .loopEnd → ∀ l, x.loop = some l → (loops.get? l.id).isSome

theorem Expr.Tagged.mono {loops loops' : LoopTable} (h : x.Tagged loops)
    (hl : ∀ id, (loops.get? id).isSome → (loops'.get? id).isSome) : x.Tagged loops' :=
  ⟨fun id hid hs => hl id (h.tags id hid hs), fun hkind l hx => hl l.id (h.params hkind l hx)⟩

/-- Does the expression take part in the nest? Buffers and interfaces stand outside. -/
def Expr.inNest (x : Expr) : Bool := !(x.kind = .buffer || x.kind.isInterface)

/-- The table has the amounts of the loop. -/
def LoopTable.Matches (t : LoopTable) (l : LoopParams) : Prop :=
  ∃ info, t.get? l.id = some info ∧ info.workAmount = l.workAmount ∧ info.increment = l.increment

namespace Code

variable {t t' t'' : LoopTable} {c c' c'' d d' : Code} {ids new new' path : List LoopId}
  {id : LoopId}

/-- The table has the amounts of every loop of the code. -/
def Agrees (t : LoopTable) : Code → Prop
  | done => True
  | op _ rest => rest.Agrees t
  | loop _ e body rest => (∀ l, e.loop = some l → t.Matches l) ∧ body.Agrees t ∧ rest.Agrees t

theorem Agrees.congr (hc : c.Agrees t) (h : ∀ id ∈ c.names, t'.get? id = t.get? id) :
    c.Agrees t' := by
  induction c with
  | done => trivial
  | op x rest ih => exact ih hc h
  | loop b e body rest ihbody ihrest =>
    simp only [names, mem_append] at h
    refine ⟨?_, ihbody hc.2.1 fun id hid => h id (.inr (.inl hid)), ihrest hc.2.2 fun id hid => h id (.inr (.inr hid))⟩
    intro l hl
    obtain ⟨info, hinfo, hamounts⟩ := hc.1 l hl
    exact ⟨info, (h l.id (.inl (by simp [hl]))).trans hinfo, hamounts⟩

theorem Agrees.isSome (hc : c.Agrees t) (hid : id ∈ c.names) : (t.get? id).isSome := by
  induction c with
  | done => cases hid
  | op x rest ih => exact ih hc hid
  | loop b e body rest ihbody ihrest =>
    simp only [names, mem_append] at hid
    rcases hid with hid | hid | hid
    · obtain ⟨l, hl, rfl⟩ := mem_map.1 hid
      obtain ⟨info, hinfo, -⟩ := hc.1 l (by simpa using hl)
      rw [hinfo]
      rfl
    · exact ihbody hc.2.1 hid
    · exact ihrest hc.2.2 hid

theorem Agrees.of_mem_loops (hc : c.Agrees t) {body : Code} {l : LoopParams}
    (h : (b, e, body) ∈ c.loops)
    (hl : e.loop = some l) : t.Matches l := by
  induction c with
  | done => cases h
  | op x rest ih => exact ih hc h
  | loop b' e' body' rest ihbody ihrest =>
    rcases mem_cons.1 h with h | h
    · cases h
      exact hc.1 l hl
    · rcases mem_append.1 h with h | h
      · exact ihbody hc.2.1 h
      · exact ihrest hc.2.2 h

theorem agrees_append : (c.append d).Agrees t ↔ c.Agrees t ∧ d.Agrees t := by
  induction c with
  | done => simp [append, Agrees]
  | op x rest ih => exact ih
  | loop b e body rest _ ih => simp [append, Agrees, ih, and_assoc]

theorem agrees_ofOps : (ofOps xs c).Agrees t ↔ c.Agrees t := by
  induction xs with
  | nil => exact Iff.rfl
  | cons x xs ih => exact ih

theorem labelled_ofOps : (ofOps xs c).Labelled ids path ↔
    (∀ x ∈ xs, x.loopIds.filter (ids.contains ·) = path) ∧ c.Labelled ids path := by
  induction xs with
  | nil => simp [ofOps]
  | cons x xs ih => simp [ofOps, Labelled, ih, and_assoc]

theorem names_append (c d : Code) : (c.append d).names = c.names ++ d.names := by
  induction c with
  | done => rfl
  | op x rest ih => exact ih
  | loop b e body rest _ ih => simp [append, names, ih]

theorem labelled_append : (c.append d).Labelled ids path ↔ c.Labelled ids path ∧ d.Labelled ids path := by
  induction c with
  | done => simp [append, Labelled]
  | op x rest ih => simp [append, Labelled, ih, and_assoc]
  | loop b e body rest _ ih => simp [append, Labelled, ih, and_assoc]

/-- More loops may be looked at where none of them tags the code. -/
theorem Labelled.grow (hc : c.Labelled ids path)
    (hnew : ∀ x ∈ c.flatten, ∀ id ∈ new, id ∉ x.loopIds) :
    c.Labelled (ids ++ new) path := by
  have hfilter : ∀ x ∈ c.flatten, x.loopIds.filter ((ids ++ new).contains ·) = x.loopIds.filter (ids.contains ·) := by
    intro x hx
    apply filter_congr
    intro id hid
    have hfree : id ∉ new := fun hmem => hnew x hx id hmem hid
    rw [Bool.eq_iff_iff, contains_iff_mem, contains_iff_mem, mem_append, or_iff_left hfree]
  clear hnew
  induction c generalizing path with
  | done => trivial
  | op x rest ih =>
    exact ⟨(hfilter x mem_cons_self).trans hc.1, ih hc.2 fun y hy => hfilter y (mem_cons_of_mem x hy)⟩
  | loop b e body rest ihbody ihrest =>
    obtain ⟨⟨hb, he⟩, ⟨l, hl, hid, hne, hbody⟩, hrest⟩ := hc
    refine ⟨⟨(hfilter b (by simp [flatten])).trans hb, (hfilter e (by simp [flatten])).trans he⟩,
      ⟨l, hl, mem_append_left _ hid, hne, ihbody hbody ?_⟩, ihrest hrest ?_⟩
    · intro y hy
      exact hfilter y (by simp [flatten, hy])
    · intro y hy
      exact hfilter y (by simp [flatten, hy])

/-- A labelled loop tags what stands in it. -/
theorem Labelled.exists_tagged (hc : c.Labelled ids path) (hid : id ∈ c.names) :
    ∃ x ∈ c.flatten, id ∈ x.loopIds := by
  induction c generalizing path with
  | done => cases hid
  | op x rest ih =>
    obtain ⟨y, hy, htag⟩ := ih hc.2 hid
    exact ⟨y, mem_cons_of_mem x hy, htag⟩
  | loop b e body rest ihbody ihrest =>
    obtain ⟨-, ⟨l, hl, -, hne, hbody⟩, hrest⟩ := hc
    simp only [names, hl, Option.toList_some, map_cons, map_nil, mem_append, mem_singleton] at hid
    rcases hid with rfl | hid | hid
    · obtain ⟨y, hy⟩ : ∃ y, y ∈ body.flatten := by
        cases body with
        | done => exact absurd rfl hne
        | op y rest => exact ⟨y, mem_cons_self⟩
        | loop b' e' body' rest => exact ⟨b', mem_cons_self⟩
      have htags := (hbody.path_isPrefix hy).subset (mem_append_right path mem_cons_self)
      exact ⟨y, by simp [flatten, hy], (mem_filter.1 htags).1⟩
    · obtain ⟨y, hy, htag⟩ := ihbody hbody hid
      exact ⟨y, by simp [flatten, hy], htag⟩
    · obtain ⟨y, hy, htag⟩ := ihrest hrest hid
      exact ⟨y, by simp [flatten, hy], htag⟩

/-! ## Copies -/

section Copies

variable {copy : Expr → Expr} {f : LoopId → LoopId}

theorem names_map (hloop : ∀ x ∈ c.flatten, (copy x).loop = x.loop.map fun l => { l with id := f l.id }) :
    (c.map copy).names = c.names.map f := by
  induction c with
  | done => rfl
  | op x rest ih => exact ih fun y hy => hloop y (mem_cons_of_mem x hy)
  | loop b e body rest ihbody ihrest =>
    rw [map, names, names, hloop e (by simp [flatten]), ihbody fun y hy => hloop y (by simp [flatten, hy]),
      ihrest fun y hy => hloop y (by simp [flatten, hy])]
    cases e.loop <;> simp

/-- A copy under other names is labelled with them. -/
theorem Labelled.map (hc : c.Labelled ids path)
    (htags : ∀ x ∈ c.flatten, (copy x).loopIds = x.loopIds.map f)
    (hloop : ∀ x ∈ c.flatten, (copy x).loop = x.loop.map fun l => { l with id := f l.id })
    (hids : ∀ x ∈ c.flatten, ∀ id ∈ x.loopIds, f id ∈ ids' ↔ id ∈ ids) (hnames : ∀ id ∈ c.names, f id ∈ ids') :
    (c.map copy).Labelled ids' (path.map f) := by
  have hfilter : ∀ x ∈ c.flatten, (copy x).loopIds.filter (ids'.contains ·) =
      (x.loopIds.filter (ids.contains ·)).map f := by
    intro x hx
    rw [htags x hx, filter_map]
    congr 1
    apply filter_congr
    intro id hid
    rw [Function.comp_apply, Bool.eq_iff_iff, contains_iff_mem, contains_iff_mem]
    exact hids x hx id hid
  clear htags hids
  induction c generalizing path with
  | done => trivial
  | op x rest ih =>
    refine ⟨(hfilter x mem_cons_self).trans (by rw [hc.1]), ih hc.2 ?_ hnames ?_⟩
    · intro y hy
      exact hloop y (mem_cons_of_mem x hy)
    · intro y hy
      exact hfilter y (mem_cons_of_mem x hy)
  | loop b e body rest ihbody ihrest =>
    obtain ⟨⟨hb, he⟩, ⟨l, hl, hid, hne, hbody⟩, hrest⟩ := hc
    simp only [names, mem_append] at hnames
    have hown : f l.id ∈ ids' := hnames l.id (.inl (by simp [hl]))
    have hbody' := ihbody hbody (fun y hy => hloop y (by simp [flatten, hy])) (fun i hi => hnames i (.inr (.inl hi)))
      fun y hy => hfilter y (by simp [flatten, hy])
    have hrest' := ihrest hrest (fun y hy => hloop y (by simp [flatten, hy])) (fun i hi => hnames i (.inr (.inr hi)))
      fun y hy => hfilter y (by simp [flatten, hy])
    rw [List.map_append] at hbody'
    refine ⟨⟨?_, ?_⟩, ⟨{ l with id := f l.id }, ?_, hown, ?_, hbody'⟩, hrest'⟩
    · rw [hfilter b (by simp [flatten]), hb]
    · rw [hfilter e (by simp [flatten]), he]
    · rw [hloop e (by simp [flatten]), hl]
      rfl
    · cases body with
      | done => exact absurd rfl hne
      | op y rest => exact op_ne_done _ _
      | loop b' e' body' rest => exact loop_ne_done _ _ _ _

theorem Agrees.map (hc : c.Agrees t)
    (hloop : ∀ x ∈ c.flatten, (copy x).loop = x.loop.map fun l => { l with id := f l.id })
    (hinfo : ∀ id ∈ c.names, ∀ info, t.get? id = some info → ∃ info', t'.get? (f id) = some info' ∧
      info'.workAmount = info.workAmount ∧ info'.increment = info.increment) : (c.map copy).Agrees t' := by
  induction c with
  | done => trivial
  | op x rest ih => exact ih hc (fun y hy => hloop y (mem_cons_of_mem x hy)) hinfo
  | loop b e body rest ihbody ihrest =>
    simp only [names, mem_append] at hinfo
    refine ⟨?_, ihbody hc.2.1 ?_ ?_, ihrest hc.2.2 ?_ ?_⟩
    · intro l' hl'
      rw [hloop e (by simp [flatten])] at hl'
      obtain ⟨l, hl, rfl⟩ := Option.map_eq_some_iff.1 hl'
      obtain ⟨info, hget, hwork, hstep⟩ := hc.1 l hl
      obtain ⟨info', hget', hwork', hstep'⟩ := hinfo l.id (.inl (by simp [hl])) info hget
      exact ⟨info', hget', hwork'.trans hwork, hstep'.trans hstep⟩
    · intro y hy
      exact hloop y (by simp [flatten, hy])
    · intro i hi
      exact hinfo i (.inr (.inl hi))
    · intro y hy
      exact hloop y (by simp [flatten, hy])
    · intro i hi
      exact hinfo i (.inr (.inr hi))

end Copies

/-! ## Registered code -/

/-- The loops of the code are registered with their amounts and have different names, and what
    stands in the code is tagged with registered loops, of those in `ids` with the ones around
    it. -/
structure Registered (t : LoopTable) (ids path : List LoopId) (c : Code) : Prop where
  labelled : c.Labelled ids path
  known : ∀ id ∈ ids, (t.get? id).isSome
  tagged : ∀ x ∈ c.flatten, x.Tagged t
  apart : c.names.Nodup
  outside : ∀ id ∈ path, id ∉ c.names
  agrees : c.Agrees t

namespace Registered

variable {l : LoopParams} {body rest : Code}

theorem of_append (h : (c.append d).Registered t ids path) :
    c.Registered t ids path ∧ d.Registered t ids path ∧ ∀ id ∈ c.names, id ∉ d.names := by
  have hnames := h.apart
  have houtside := h.outside
  rw [names_append] at hnames houtside
  rw [nodup_append] at hnames
  have htagged := h.tagged
  rw [flatten_append] at htagged
  refine ⟨⟨(labelled_append.1 h.labelled).1, h.known, ?_, hnames.1, ?_, (agrees_append.1 h.agrees).1⟩,
    ⟨(labelled_append.1 h.labelled).2, h.known, ?_, hnames.2.1, ?_, (agrees_append.1 h.agrees).2⟩, ?_⟩
  · intro y hy
    exact htagged y (mem_append_left _ hy)
  · intro id hid hmem
    exact houtside id hid (mem_append_left _ hmem)
  · intro y hy
    exact htagged y (mem_append_right _ hy)
  · intro id hid hmem
    exact houtside id hid (mem_append_right _ hmem)
  · intro id hid hmem
    exact hnames.2.2 id hid id hmem rfl

/-- What is known of a loop that is registered: its name is among the others, and its body is
    registered inside it. -/
theorem inside (h : (loop b e body done).Registered t ids path) (hl : e.loop = some l) :
    body.Registered t ids (path ++ [l.id]) ∧ l.id ∈ ids ∧ l.id ∉ path ∧ l.id ∉ body.names ∧ body ≠ done ∧ t.Matches l ∧
      e.loopIds.filter (ids.contains ·) = path := by
  obtain ⟨⟨-, he⟩, ⟨l', hl', hid, hne, hbody⟩, -⟩ := h.labelled
  obtain rfl : l = l' := Option.some.inj (hl.symm.trans hl')
  have hnames : (loop b e body done).names = l.id :: body.names := by simp [names, hl]
  have hapart := h.apart
  have houtside := h.outside
  rw [hnames] at hapart houtside
  rw [nodup_cons] at hapart
  refine ⟨⟨hbody, h.known, ?_, hapart.2, ?_, h.agrees.2.1⟩, hid, ?_, hapart.1, hne, h.agrees.1 l hl, he⟩
  · intro y hy
    exact h.tagged y (by simp [flatten, hy])
  · intro id hid hmem
    rcases mem_append.1 hid with hid | hid
    · exact houtside id hid (mem_cons_of_mem _ hmem)
    · rw [mem_singleton.1 hid] at hmem
      exact hapart.1 hmem
  · intro hmem
    exact houtside l.id hmem mem_cons_self

/-- The table may change where the code has no loops. -/
theorem congr (h : c.Registered t ids path) (hgrown : ∀ id, (t.get? id).isSome → (t'.get? id).isSome)
    (hsame : ∀ id ∈ c.names, t'.get? id = t.get? id) : c.Registered t' ids path where
  labelled := h.labelled
  known id hid := hgrown id (h.known id hid)
  tagged x hx := (h.tagged x hx).mono hgrown
  apart := h.apart
  outside := h.outside
  agrees := h.agrees.congr hsame

end Registered

/-- The names of labelled loops are among the labels. -/
theorem Labelled.mem_of_mem_names (hc : c.Labelled ids path) (hid : id ∈ c.names) : id ∈ ids := by
  induction c generalizing path with
  | done => cases hid
  | op x rest ih => exact ih hc.2 hid
  | loop b e body rest ihbody ihrest =>
    obtain ⟨-, ⟨l, hl, hown, -, hbody⟩, hrest⟩ := hc
    simp only [names, hl, Option.toList_some, map_cons, map_nil, mem_append, mem_singleton] at hid
    rcases hid with rfl | hid | hid
    · exact hown
    · exact ihbody hbody hid
    · exact ihrest hrest hid

/-! ## What became of registered code -/

/-- What takes part in the nest is tagged with the loops in `ids` only. -/
def Covered (ids : List LoopId) (c : Code) : Prop :=
  ∀ x ∈ c.flatten, x.inNest = true → ∀ id ∈ x.loopIds, id.isSentinel = false → id ∈ ids

theorem Covered.mono (hc : c.Covered ids) (h : ∀ id ∈ ids, id ∈ ids') : c.Covered ids' :=
  fun x hx hnest id hid hs => h id (hc x hx hnest id hid hs)

theorem covered_append : (c.append d).Covered ids ↔ c.Covered ids ∧ d.Covered ids := by
  simp only [Covered, flatten_append, mem_append, or_imp, forall_and]

theorem covered_ofOps : (ofOps xs c).Covered ids ↔
    (∀ x ∈ xs, x.inNest = true → ∀ id ∈ x.loopIds, id.isSentinel = false → id ∈ ids) ∧ c.Covered ids := by
  simp only [Covered, flatten_ofOps, mem_append, or_imp, forall_and]

theorem covered_op : (op x c).Covered ids ↔
    (x.inNest = true → ∀ id ∈ x.loopIds, id.isSentinel = false → id ∈ ids) ∧ c.Covered ids := by
  simp only [Covered, flatten, forall_mem_cons]

theorem covered_loop : (loop b e c done).Covered ids ↔
    (op b (op e done)).Covered ids ∧ c.Covered ids := by
  simp only [Covered, flatten, mem_cons, mem_append, not_mem_nil, or_false, or_imp, forall_and,
    forall_eq]
  tauto

/-- The registered code `c` has become `c'` while the table `t` became `t'`, and the loops `new`
    were added: they have fresh names, and no loop outside the code was touched. -/
structure Relabels (t t' : LoopTable) (ids path : List LoopId) (c c' : Code) (new : List LoopId) :
    Prop where
  grown : ∀ id, (t.get? id).isSome → (t'.get? id).isSome
  fresh : ∀ id ∈ new, t.get? id = none ∧ id.isSentinel = false ∧ (t'.get? id).isSome
  once : new.Nodup
  names : c'.names.Perm (c.names ++ new)
  frame : ∀ id, id ∉ c.names → (t.get? id).isSome → t'.get? id = t.get? id
  nonempty : c ≠ done → c' ≠ done
  covered : c.Covered ids → c'.Covered (ids ++ new)
  kin : ∀ i' ∈ c'.names, ∀ info', t'.get? i' = some info' → ∃ i ∈ c.names, ∃ info, t.get? i = some info ∧ info'.Kin info
  registered : c'.Registered t' (ids ++ new) path

namespace Relabels

variable {l : LoopParams} {path' : List LoopId}

theorem not_mem_new (h : Relabels t t' ids path c c' new) (hid : (t.get? id).isSome) : id ∉ new := by
  intro hmem
  rw [(h.fresh id hmem).1] at hid
  cases hid

/-- What is tagged with registered loops is not tagged with new ones. -/
theorem not_mem_tags (h : Relabels t t' ids path c c' new) (hx : x.Tagged t) (hid : id ∈ new) :
    id ∉ x.loopIds := by
  intro hmem
  exact h.not_mem_new (hx.tags id hmem (h.fresh id hid).2.1) hid

theorem refl (h : c.Registered t ids path) : Relabels t t ids path c c [] where
  grown _ h := h
  fresh := by simp
  once := .nil
  names := by simp
  frame _ _ _ := rfl
  nonempty h := h
  covered h := by rwa [append_nil]
  kin i hi info hinfo := ⟨i, hi, info, hinfo, .refl info⟩
  registered := by rwa [append_nil]

/-- Loops that were added one after the other have different fresh names. -/
theorem fresh_append (h : Relabels t t' ids path c c' new)
    (h' : Relabels t' t'' ids' path' d d' new') :
    (∀ id ∈ new ++ new', t.get? id = none ∧ id.isSentinel = false ∧ (t''.get? id).isSome) ∧ (new ++ new').Nodup := by
  constructor
  · intro id hid
    rcases mem_append.1 hid with hid | hid
    · obtain ⟨hnone, hreal, hsome⟩ := h.fresh id hid
      exact ⟨hnone, hreal, h'.grown id hsome⟩
    · obtain ⟨hnone, hreal, hsome⟩ := h'.fresh id hid
      refine ⟨?_, hreal, hsome⟩
      rw [← Option.not_isSome_iff_eq_none]
      intro hold
      exact h'.not_mem_new (h.grown id hold) hid
  · rw [nodup_append]
    refine ⟨h.once, h'.once, ?_⟩
    rintro i hi j hj rfl
    exact h'.not_mem_new (h.fresh i hi).2.2 hj

theorem trans (h : Relabels t t' ids path c c' new)
    (h' : Relabels t' t'' (ids ++ new) path c' c'' new') :
    Relabels t t'' ids path c c'' (new ++ new') where
  grown id hid := h'.grown id (h.grown id hid)
  fresh := (h.fresh_append h').1
  once := (h.fresh_append h').2
  names := by
    rw [← append_assoc]
    exact h'.names.trans (h.names.append_right new')
  frame := by
    intro id hid hsome
    have hid' : id ∉ c'.names := by
      rw [h.names.mem_iff, mem_append, not_or]
      exact ⟨hid, h.not_mem_new hsome⟩
    rw [h'.frame id hid' (h.grown id hsome), h.frame id hid hsome]
  nonempty hc := h'.nonempty (h.nonempty hc)
  covered hc := by
    rw [← append_assoc]
    exact h'.covered (h.covered hc)
  kin i'' hi'' info'' hinfo'' := by
    obtain ⟨i', hi', info', hinfo', hkin'⟩ := h'.kin i'' hi'' info'' hinfo''
    obtain ⟨i, hi, info, hinfo, hkin⟩ := h.kin i' hi' info' hinfo'
    exact ⟨i, hi, info, hinfo, hkin'.trans hkin⟩
  registered := by
    rw [← append_assoc]
    exact h'.registered

/-- Code beside the code that changed. -/
theorem beside (h : Relabels t t' ids path c c' new) (hd : d.Registered t ids path')
    (hout : ∀ id ∈ d.names, id ∉ c.names) : d.Registered t' (ids ++ new) path' where
  labelled := by
    apply hd.labelled.grow
    intro y hy id hid
    exact h.not_mem_tags (hd.tagged y hy) hid
  known := by
    intro id hid
    rcases mem_append.1 hid with hid | hid
    · exact h.grown id (hd.known id hid)
    · exact (h.fresh id hid).2.2
  tagged y hy := (hd.tagged y hy).mono h.grown
  apart := hd.apart
  outside := hd.outside
  agrees := by
    apply hd.agrees.congr
    intro id hid
    exact h.frame id (hout id hid) (hd.agrees.isSome hid)

/-- An expression has become several, which close no loop and have its tags. -/
theorem ofOp (hx : (Code.op x done).Registered t ids path) {ys : List Expr} (hne : ys ≠ [])
    (hys : ∀ y ∈ ys, y.loopIds = x.loopIds ∧ y.kind ≠ .loopEnd ∧ (y.inNest = true → x.inNest = true)) :
    Relabels t t ids path (.op x done) (ofOps ys done) [] := by
  have hnames : (ofOps ys done).names = [] := names_ofOps ys done
  refine ⟨fun _ h => h, by simp, .nil, by rw [hnames]; exact .nil, fun _ _ _ => rfl, fun _ => ?_,
    fun hcov => ?_, ?_, ?_⟩
  · cases ys with
    | nil => exact absurd rfl hne
    | cons y ys => exact op_ne_done _ _
  · refine covered_ofOps.2 ⟨fun y hy hnest id hid hs => ?_, fun _ h => by cases h⟩
    obtain ⟨hids, -, hnest'⟩ := hys y hy
    exact mem_append_left _ ((covered_op.1 hcov).1 (hnest' hnest) id (hids ▸ hid) hs)
  · simp [hnames]
  · rw [append_nil]
    refine ⟨labelled_ofOps.2 ⟨fun y hy => (hys y hy).1 ▸ hx.labelled.1, trivial⟩, hx.known, fun y hy => ?_, ?_, ?_,
      agrees_ofOps.2 trivial⟩
    · rw [flatten_ofOps, flatten, append_nil] at hy
      obtain ⟨hids, hend, -⟩ := hys y hy
      exact ⟨fun id hid hs => (hx.tagged x mem_cons_self).tags id (hids ▸ hid) hs, fun h => absurd h hend⟩
    · rw [hnames]
      exact .nil
    · simp [hnames]

/-- The body of a loop has changed. -/
theorem inLoop (hloop : (loop b e c done).Registered t ids path) (hl : e.loop = some l)
    (h : Relabels t t' ids (path ++ [l.id]) c c' new) :
    Relabels t t' ids path (loop b e c done) (loop b e c' done) new := by
  obtain ⟨-, hid, houtside, hbody, hne, -, -⟩ := hloop.inside hl
  have hnames : ∀ c : Code, (loop b e c done).names = l.id :: c.names := fun c => by simp [Code.names, hl]
  have hsome : (t.get? l.id).isSome := hloop.known l.id hid
  -- the markers are code beside the body
  have hmarkers : (Code.op b (.op e done)).Registered t ids path := by
    refine ⟨⟨hloop.labelled.1.1, hloop.labelled.1.2, trivial⟩, hloop.known, ?_, .nil, fun _ _ => not_mem_nil, trivial⟩
    intro y hy
    apply hloop.tagged
    rcases mem_pair.1 hy with rfl | rfl <;> simp [flatten]
  have hmarkers' := h.beside hmarkers (by simp [Code.names])
  have hnew : ∀ id ∈ c'.names, id ∈ c.names ∨ id ∈ new := fun id hid => by simpa using h.names.mem_iff.1 hid
  refine ⟨h.grown, h.fresh, h.once, ?_, ?_, fun _ => loop_ne_done _ _ _ _, fun hcov => ?_, ?_,
    ⟨⟨hmarkers'.labelled.1, hmarkers'.labelled.2.1⟩,
      ⟨l, hl, mem_append_left _ hid, h.nonempty hne, h.registered.labelled⟩, trivial⟩, hmarkers'.known, ?_, ?_, ?_, ?_,
    h.registered.agrees, trivial⟩
  · rw [hnames, hnames, cons_append]
    exact h.names.cons l.id
  · intro i hi hsome
    rw [hnames, mem_cons, not_or] at hi
    exact h.frame i hi.2 hsome
  · obtain ⟨hends, hbody⟩ := covered_loop.1 hcov
    exact covered_loop.2 ⟨hends.mono fun _ => mem_append_left _, h.covered hbody⟩
  · intro i hi info hinfo
    rw [hnames, mem_cons] at hi
    rw [hnames]
    rcases hi with rfl | hi
    · exact ⟨l.id, mem_cons_self, info, (h.frame l.id hbody hsome).symm.trans hinfo, .refl info⟩
    · obtain ⟨j, hj, hkin⟩ := h.kin i hi info hinfo
      exact ⟨j, mem_cons_of_mem _ hj, hkin⟩
  · intro y hy
    simp only [flatten, mem_cons, mem_append, not_mem_nil, or_false] at hy
    rcases hy with rfl | hy | rfl
    · exact hmarkers'.tagged y (by simp [flatten])
    · exact h.registered.tagged y hy
    · exact hmarkers'.tagged y (by simp [flatten])
  · rw [hnames, nodup_cons]
    refine ⟨fun hmem => ?_, h.registered.apart⟩
    rcases hnew l.id hmem with hmem | hmem
    · exact hbody hmem
    · exact h.not_mem_new hsome hmem
  · intro i hi hmem
    rw [hnames, mem_cons] at hmem
    rcases hmem with rfl | hmem
    · exact houtside hi
    · exact h.registered.outside i (mem_append_left _ hi) hmem
  · intro l' hl'
    obtain ⟨info, hinfo, hamounts⟩ := hloop.agrees.1 l' hl'
    obtain rfl : l = l' := Option.some.inj (hl.symm.trans hl')
    exact ⟨info, (h.frame l.id hbody hsome).trans hinfo, hamounts⟩

/-- What became of two pieces of code, one after the other. -/
theorem append (hcd : (c.append d).Registered t ids path) (h : Relabels t t' ids path c c' new)
    (h' : Relabels t' t'' (ids ++ new) path d d' new') :
    Relabels t t'' ids path (c.append d) (c'.append d') (new ++ new') := by
  obtain ⟨hc, hd, hapart⟩ := hcd.of_append
  have hapart' : ∀ id ∈ c'.names, id ∉ d.names := by
    intro id hid hmem
    rcases mem_append.1 (h.names.mem_iff.1 hid) with hold | hnew
    · exact hapart id hold hmem
    · exact h.not_mem_new (hd.agrees.isSome hmem) hnew
  have hfirst := h'.beside h.registered hapart'
  have hsecond := h'.registered
  rw [append_assoc] at hfirst hsecond
  refine ⟨fun id hid => h'.grown id (h.grown id hid), (h.fresh_append h').1, (h.fresh_append h').2, ?_, ?_, ?_,
    fun hcov => ?_, ?_, labelled_append.2 ⟨hfirst.labelled, hsecond.labelled⟩, hfirst.known, ?_, ?_, ?_,
    agrees_append.2 ⟨hfirst.agrees, hsecond.agrees⟩⟩
  · rw [names_append, names_append]
    refine (h.names.append h'.names).trans ?_
    rw [append_assoc, append_assoc]
    exact (perm_append_comm_assoc _ _ _).append_left _
  · intro id hid hsome
    rw [names_append, mem_append, not_or] at hid
    rw [h'.frame id hid.2 (h.grown id hsome), h.frame id hid.1 hsome]
  · intro hne
    cases c' with
    | op y rest => exact op_ne_done _ _
    | loop b e body rest => exact loop_ne_done _ _ _ _
    | done =>
      cases c with
      | op y rest => exact absurd rfl (h.nonempty (op_ne_done _ _))
      | loop b e body rest => exact absurd rfl (h.nonempty (loop_ne_done _ _ _ _))
      | done => exact h'.nonempty hne
  · obtain ⟨hc, hd⟩ := covered_append.1 hcov
    rw [← append_assoc]
    exact covered_append.2 ⟨(h.covered hc).mono fun _ => mem_append_left _,
      h'.covered (hd.mono fun _ => mem_append_left _)⟩
  · intro i hi info hinfo
    rw [names_append, mem_append] at hi
    rw [names_append]
    rcases hi with hi | hi
    · rw [h'.frame i (hapart' i hi) (h.registered.agrees.isSome hi)] at hinfo
      obtain ⟨j, hj, hkin⟩ := h.kin i hi info hinfo
      exact ⟨j, mem_append_left _ hj, hkin⟩
    · obtain ⟨j, hj, info', hinfo', hkin⟩ := h'.kin i hi info hinfo
      rw [h.frame j (fun hmem => hapart j hmem hj) (hd.agrees.isSome hj)] at hinfo'
      exact ⟨j, mem_append_right _ hj, info', hinfo', hkin⟩
  · rw [flatten_append]
    intro y hy
    rcases mem_append.1 hy with hy | hy
    · exact hfirst.tagged y hy
    · exact hsecond.tagged y hy
  · rw [names_append, nodup_append]
    refine ⟨hfirst.apart, hsecond.apart, ?_⟩
    rintro i hi j hj rfl
    rcases mem_append.1 (h'.names.mem_iff.1 hj) with hold | hnew
    · exact hapart' i hi hold
    · exact h'.not_mem_new (h.registered.agrees.isSome hi) hnew
  · intro id hid
    rw [names_append, mem_append, not_or]
    exact ⟨hfirst.outside id hid, hsecond.outside id hid⟩

/-- A loop whose amounts have changed, at its marker and in the table. -/
theorem setLoop (hloop : (loop b e c done).Registered t ids path) (hl : e.loop = some l)
    {l' : LoopParams}
    (hid : l'.id = l.id) (htable : ∀ id, id ≠ l.id → t'.get? id = t.get? id)
    (hgrown : ∀ id, (t.get? id).isSome → (t'.get? id).isSome) (hmatch : t'.Matches l')
    (hkin : ∀ info', t'.get? l.id = some info' → ∃ info, t.get? l.id = some info ∧ info'.Kin info) :
    Relabels t t' ids path (loop b e c done) (loop b (e.withParams l') c done) [] := by
  obtain ⟨hbody, hmem, houtside, hout, hne, -, -⟩ := hloop.inside hl
  have hnames : (loop b e c done).names = l.id :: c.names := by simp [Code.names, hl]
  have hnames' : (loop b (e.withParams l') c done).names = l.id :: c.names := by
    simp [Code.names, Expr.withParams, hid]
  have hinside := hbody.congr hgrown fun i hi => htable i fun h => hout (h ▸ hi)
  refine ⟨hgrown, by simp, .nil, ?_, ?_, fun _ => loop_ne_done _ _ _ _, fun hcov => ?_, ?_, ?_⟩
  · rw [hnames', hnames, append_nil]
  · intro i hi hsome
    rw [hnames, mem_cons, not_or] at hi
    exact htable i hi.1
  · obtain ⟨hends, hbody'⟩ := covered_loop.1 hcov
    obtain ⟨hb, he⟩ := covered_op.1 hends
    rw [append_nil]
    have hends' : (Code.op b (.op (e.withParams l') done)).Covered ids :=
      covered_op.2 ⟨hb, covered_op.2 ⟨(covered_op.1 he).1, (covered_op.1 he).2⟩⟩
    exact covered_loop.2 ⟨hends', hbody'⟩
  · intro i hi info hinfo
    rw [hnames', mem_cons] at hi
    rw [hnames]
    rcases hi with rfl | hi
    · exact ⟨l.id, mem_cons_self, hkin info hinfo⟩
    · rw [htable i fun hil => hout (hil ▸ hi)] at hinfo
      exact ⟨i, mem_cons_of_mem _ hi, info, hinfo, .refl info⟩
  · rw [append_nil]
    refine ⟨⟨hloop.labelled.1, ⟨l', rfl, hid ▸ hmem, hne, hid ▸ hinside.labelled⟩, trivial⟩,
      fun i hi => hgrown i (hloop.known i hi), ?_, ?_, ?_, ?_, hinside.agrees, trivial⟩
    · intro y hy
      simp only [flatten, mem_cons, mem_append, not_mem_nil, or_false] at hy
      rcases hy with rfl | hy | rfl
      · exact (hloop.tagged y (by simp [flatten])).mono hgrown
      · exact hinside.tagged y hy
      · have htagged := (hloop.tagged e (by simp [flatten])).mono hgrown
        refine ⟨htagged.tags, fun hkind l1 hl1 => ?_⟩
        obtain rfl : l' = l1 := Option.some.inj hl1
        exact hid ▸ htagged.params hkind l hl
    · rw [hnames', nodup_cons]
      exact ⟨hout, hinside.apart⟩
    · intro i hi
      rw [hnames', mem_cons, not_or]
      exact ⟨fun h => houtside (h ▸ hi), hinside.outside i (mem_append_left _ hi)⟩
    · intro l1 hl1
      obtain rfl : l' = l1 := Option.some.inj hl1
      exact hmatch

/-- A loop whose amounts have changed, in the table as at its marker. -/
theorem modifyLoop (hloop : (loop b e c done).Registered t ids path) (hl : e.loop = some l)
    (l' : LoopParams)
    (hid : l'.id = l.id) {f : LoopInfo → LoopInfo} (hkin : ∀ i, (f i).Kin i)
    (hwork : ∀ i, (f i).workAmount = l'.workAmount)
    (hstep : ∀ i, i.increment = l.increment → (f i).increment = l'.increment) :
    Relabels t (t.modify l.id f) ids path (loop b e c done) (loop b (e.withParams l') c done) [] := by
  obtain ⟨-, -, -, -, -, ⟨info, hinfo, -, hinc⟩, -⟩ := hloop.inside hl
  obtain ⟨hframe, hgrown⟩ := t.modify_frame l.id f
  have hmatch : (t.modify l.id f).Matches l' := by
    refine ⟨f info, ?_, hwork info, hstep info hinc⟩
    rw [hid, LoopTable.get?_modify_self hinfo]
  exact .setLoop hloop hl hid hframe hgrown hmatch fun _ => LoopTable.kin_modify hkin

end Relabels

end Code

end KernelLoops
