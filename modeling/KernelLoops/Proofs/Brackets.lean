import KernelLoops.Proofs.Nesting

set_option autoImplicit false

/-! # Markers as brackets

Read from front to back, the markers of a kernel are brackets. A kernel that lists nested code has
balanced ones. Where moreover the loops of the code have different names, and each expression and
marker is tagged with the loops around it, an expression lies between the markers of a loop exactly
if it is tagged with the loop. -/

namespace KernelLoops

open List

namespace Kernel

/-- Expressions read from front to back, `opened` being the opening markers that are still open, the
    innermost one first: a closing marker belongs to the innermost of them, and in the end none is
    left. -/
def Balanced (k : Kernel) : List ExprId → List Expr → Prop
  | opened, [] => opened = []
  | opened, x :: xs =>
    match x.kind with
    | .loopBegin => k.Balanced (x.id :: opened) xs
    | .loopEnd =>
      ∃ b rest, opened = b :: rest ∧ k.loopEndOf b = .ok x.id ∧ k.loopBeginOf x.id = .ok b ∧
        k.Balanced rest xs
    | _ => k.Balanced opened xs

instance decidableBalanced (k : Kernel) :
    (opened : List ExprId) → (xs : List Expr) → Decidable (k.Balanced opened xs)
  | opened, [] => inferInstanceAs (Decidable (opened = []))
  | opened, x :: xs =>
    have _rest : ∀ opened, Decidable (k.Balanced opened xs) := fun opened => decidableBalanced k opened xs
    if hopens : x.kind = .loopBegin then
      decidable_of_iff (k.Balanced (x.id :: opened) xs) (by simp only [Balanced, hopens])
    else if hcloses : x.kind = .loopEnd then
      match opened with
      | [] => .isFalse (by simp [Balanced, hcloses])
      | b :: opened =>
        decidable_of_iff (k.loopEndOf b = .ok x.id ∧ k.loopBeginOf x.id = .ok b ∧ k.Balanced opened xs)
          (by simp [Balanced, hcloses])
    else decidable_of_iff (k.Balanced opened xs) (by cases hkind : x.kind <;> simp_all [Balanced])

/-- The expressions `b` and `e` are the markers of the loop `id`, and each finds the other. -/
structure LoopPair (k : Kernel) (id : LoopId) (b e : Expr) : Prop where
  opening : b ∈ k.sequence
  closing : e ∈ k.sequence
  opens : b.kind = .loopBegin
  closes : e.kind = .loopEnd
  named : e.loop.map LoopParams.id = some id
  endOf : k.loopEndOf b.id = .ok e.id
  beginOf : k.loopBeginOf e.id = .ok b.id

/-- The expression `x` comes after `b` and before `e`. -/
def Between (k : Kernel) (b x e : Expr) : Prop := Sublist [b, x, e] k.sequence

end Kernel

namespace Code

/-- The loops of the code: their markers and bodies. -/
def loops : Code → List (Expr × Expr × Code)
  | done => []
  | op _ rest => rest.loops
  | loop b e body rest => (b, e, body) :: (body.loops ++ rest.loops)

/-- The names of the loops of the code. -/
def names : Code → List LoopId
  | done => []
  | op _ rest => rest.names
  | loop _ e body rest => e.loop.toList.map LoopParams.id ++ (body.names ++ rest.names)

/-- Of the loops `ids`, each expression and marker is tagged with those around it: the loops of
    `path`, which are around the code, and those of the code. A loop has a name among them and is
    not empty. -/
def Labelled (ids : List LoopId) : List LoopId → Code → Prop
  | _, done => True
  | path, op x rest => x.loopIds.filter (ids.contains ·) = path ∧ rest.Labelled ids path
  | path, loop b e body rest =>
    (b.loopIds.filter (ids.contains ·) = path ∧ e.loopIds.filter (ids.contains ·) = path) ∧
      (∃ l, e.loop = some l ∧ l.id ∈ ids ∧ body ≠ done ∧ body.Labelled ids (path ++ [l.id])) ∧
      rest.Labelled ids path

variable {c body : Code} {xs : List Expr} {x b e : Expr} {l : LoopParams} {ids path : List LoopId}
  {id : LoopId}

theorem flatten_of_mem_loops (h : (b, e, body) ∈ c.loops) :
    ∃ pre post, c.flatten = pre ++ b :: (body.flatten ++ e :: post) := by
  induction c with
  | done => cases h
  | op x rest ih =>
    obtain ⟨pre, post, hflat⟩ := ih h
    exact ⟨x :: pre, post, congrArg (x :: ·) hflat⟩
  | loop b' e' body' rest ihbody ihrest =>
    rw [loops, mem_cons, mem_append] at h
    rcases h with h | h | h
    · cases h
      exact ⟨[], rest.flatten, rfl⟩
    · obtain ⟨pre, post, hflat⟩ := ihbody h
      exact ⟨b' :: pre, post ++ e' :: rest.flatten, by simp [flatten, hflat]⟩
    · obtain ⟨pre, post, hflat⟩ := ihrest h
      exact ⟨b' :: (body'.flatten ++ e' :: pre), post, by simp [flatten, hflat]⟩

/-- The markers and the body of a loop belong to the code. -/
theorem mem_flatten_of_mem_loops (h : (b, e, body) ∈ c.loops) :
    b ∈ c.flatten ∧ e ∈ c.flatten ∧ ∀ x ∈ body.flatten, x ∈ c.flatten := by
  obtain ⟨pre, post, hflat⟩ := flatten_of_mem_loops h
  rw [hflat]
  refine ⟨by simp, by simp, ?_⟩
  intro x hx
  simp [hx]

theorem Nested.of_mem_loops (hc : c.Nested xs) (h : (b, e, body) ∈ c.loops) : Tied xs b e := by
  induction c with
  | done => cases h
  | op x rest ih => exact ih hc.2 h
  | loop b' e' body' rest ihbody ihrest =>
    rw [loops, mem_cons, mem_append] at h
    rcases h with h | h | h
    · cases h
      exact hc.1
    · exact ihbody hc.2.1 h
    · exact ihrest hc.2.2 h

/-- A marker of nested code belongs to one of its loops. -/
theorem Nested.exists_loop (hc : c.Nested xs) (hx : x ∈ c.flatten) (hkind : x.kind.isMarker = true) :
    ∃ b e body, (b, e, body) ∈ c.loops ∧ (x = b ∨ x = e) := by
  induction c with
  | done => cases hx
  | op y rest ih =>
    rcases mem_cons.1 hx with rfl | hx
    · rw [hc.1] at hkind
      cases hkind
    · exact ih hc.2 hx
  | loop b' e' body' rest ihbody ihrest =>
    simp only [flatten, mem_cons, mem_append] at hx
    rcases hx with rfl | hx | rfl | hx
    · exact ⟨x, e', body', mem_cons_self, .inl rfl⟩
    · obtain ⟨b, e, body, hloop, hxb⟩ := ihbody hc.2.1 hx
      exact ⟨b, e, body, by simp [loops, hloop], hxb⟩
    · exact ⟨b', x, body', mem_cons_self, .inr rfl⟩
    · obtain ⟨b, e, body, hloop, hxb⟩ := ihrest hc.2.2 hx
      exact ⟨b, e, body, by simp [loops, hloop], hxb⟩

/-- What is no marker are the expressions of the code. -/
theorem Nested.filter_flatten (hc : c.Nested xs) :
    c.flatten.filter (fun x => !x.kind.isMarker) = c.ops := by
  induction c with
  | done => rfl
  | op x rest ih => simp [flatten, ops, hc.1, ih hc.2]
  | loop b e body rest ihbody ihrest =>
    obtain ⟨htied, hbody, hrest⟩ := hc
    have hb : b.kind.isMarker = true := by
      rw [htied.opens]
      rfl
    have he : e.kind.isMarker = true := by
      rw [htied.closes]
      rfl
    simp [flatten, ops, hb, he, ihbody hbody, ihrest hrest]

/-! ## Names -/

@[simp] theorem names_ofOps (xs : List Expr) (c : Code) : (ofOps xs c).names = c.names := by
  induction xs with
  | nil => rfl
  | cons x xs ih => exact ih

theorem mem_names_iff : id ∈ c.names ↔ ∃ b e body, (b, e, body) ∈ c.loops ∧
    e.loop.map LoopParams.id = some id := by
  induction c with
  | done => simp [names, loops]
  | op x rest ih => exact ih
  | loop b' e' body' rest ihbody ihrest =>
    rw [names, mem_append, mem_append, ihbody, ihrest]
    have hfirst : id ∈ e'.loop.toList.map LoopParams.id ↔ e'.loop.map LoopParams.id = some id := by
      cases e'.loop <;> simp [eq_comm]
    rw [hfirst]
    constructor
    · rintro (h | ⟨b, e, body, h, hid⟩ | ⟨b, e, body, h, hid⟩)
      · exact ⟨b', e', body', by simp [loops], h⟩
      · exact ⟨b, e, body, by simp [loops, h], hid⟩
      · exact ⟨b, e, body, by simp [loops, h], hid⟩
    · rintro ⟨b, e, body, h, hid⟩
      rw [loops, mem_cons, mem_append] at h
      rcases h with h | h | h
      · cases h
        exact .inl hid
      · exact .inr (.inl ⟨b, e, body, h, hid⟩)
      · exact .inr (.inr ⟨b, e, body, h, hid⟩)

/-- Loops with different names are told apart by them. -/
theorem eq_of_name (hnames : c.names.Nodup) {b' e' : Expr} {body' : Code}
    (h : (b, e, body) ∈ c.loops)
    (h' : (b', e', body') ∈ c.loops) (hid : e.loop.map LoopParams.id = some id)
    (hid' : e'.loop.map LoopParams.id = some id) : (b, e, body) = (b', e', body') := by
  induction c with
  | done => cases h
  | op x rest ih => exact ih hnames h h'
  | loop b0 e0 body0 rest ihbody ihrest =>
    rw [names, nodup_append, nodup_append] at hnames
    obtain ⟨-, ⟨hbody, hrest, hapart⟩, hout⟩ := hnames
    -- the name of the loop itself, of a loop in its body and of a loop behind it are three
    -- different ones
    have hown : ∀ {e1 : Expr}, e1 = e0 → e1.loop.map LoopParams.id = some id →
        id ∈ e0.loop.toList.map LoopParams.id := by
      rintro e1 rfl h1
      obtain ⟨l, hl, rfl⟩ := Option.map_eq_some_iff.1 h1
      simp [hl]
    have hin : ∀ {d : Code} {b1 e1 : Expr} {body1 : Code}, (b1, e1, body1) ∈ d.loops →
        e1.loop.map LoopParams.id = some id → id ∈ d.names := by
      intro d b1 e1 body1 h1 hid1
      exact mem_names_iff.2 ⟨b1, e1, body1, h1, hid1⟩
    rw [loops, mem_cons, mem_append] at h h'
    rcases h with h | h | h <;> rcases h' with h' | h' | h'
    · rw [h, h']
    · cases h
      exact absurd rfl (hout id (hown rfl hid) id (mem_append_left _ (hin h' hid')))
    · cases h
      exact absurd rfl (hout id (hown rfl hid) id (mem_append_right _ (hin h' hid')))
    · cases h'
      exact absurd rfl (hout id (hown rfl hid') id (mem_append_left _ (hin h hid)))
    · exact ihbody hbody h h'
    · exact absurd rfl (hapart id (hin h hid) id (hin h' hid'))
    · cases h'
      exact absurd rfl (hout id (hown rfl hid') id (mem_append_right _ (hin h hid)))
    · exact absurd rfl (hapart id (hin h' hid') id (hin h hid))
    · exact ihrest hrest h h'

/-! ## Tags -/

variable (hc : c.Labelled ids path)

include hc

theorem Labelled.congr {ids' : List LoopId} (h : ∀ id, id ∈ ids ↔ id ∈ ids') :
    c.Labelled ids' path := by
  have hfilter : ∀ tags : List LoopId, tags.filter (ids'.contains ·) = tags.filter (ids.contains ·) := by
    intro tags
    apply filter_congr
    intro id _
    rw [Bool.eq_iff_iff, contains_iff_mem, contains_iff_mem, h id]
  induction c generalizing path with
  | done => trivial
  | op x rest ih => exact ⟨(hfilter _).trans hc.1, ih hc.2⟩
  | loop b e body rest ihbody ihrest =>
    obtain ⟨⟨hb, he⟩, ⟨l, hl, hid, hne, hbody⟩, hrest⟩ := hc
    exact ⟨⟨(hfilter _).trans hb, (hfilter _).trans he⟩, ⟨l, hl, (h l.id).1 hid, hne, ihbody hbody⟩, ihrest hrest⟩

theorem Labelled.path_isPrefix (hx : x ∈ c.flatten) :
    List.IsPrefix path (x.loopIds.filter (ids.contains ·)) := by
  induction c generalizing path with
  | done => cases hx
  | op y rest ih =>
    rcases mem_cons.1 hx with rfl | hx
    · exact hc.1 ▸ prefix_rfl
    · exact ih hc.2 hx
  | loop b e body rest ihbody ihrest =>
    obtain ⟨⟨hb, he⟩, ⟨l, -, -, -, hbody⟩, hrest⟩ := hc
    simp only [flatten, mem_cons, mem_append] at hx
    rcases hx with rfl | hx | rfl | hx
    · exact hb ▸ prefix_rfl
    · exact (prefix_append path [l.id]).trans (ihbody hbody hx)
    · exact he ▸ prefix_rfl
    · exact ihrest hrest hx

theorem Labelled.exists_name (h : (b, e, body) ∈ c.loops) :
    ∃ id, e.loop.map LoopParams.id = some id := by
  induction c generalizing path with
  | done => cases h
  | op y rest ih => exact ih hc.2 h
  | loop b' e' body' rest ihbody ihrest =>
    obtain ⟨-, ⟨l, hl, -, -, hbody⟩, hrest⟩ := hc
    rw [loops, mem_cons, mem_append] at h
    rcases h with h | h | h
    · cases h
      exact ⟨l.id, by rw [hl]; rfl⟩
    · exact ihbody hbody h
    · exact ihrest hrest h

/-- What lies in a loop is tagged with it. -/
theorem Labelled.mem_loopIds (h : (b, e, body) ∈ c.loops)
    (hid : e.loop.map LoopParams.id = some id) (hx : x ∈ body.flatten) : id ∈ x.loopIds := by
  induction c generalizing path with
  | done => cases h
  | op y rest ih => exact ih hc.2 h
  | loop b' e' body' rest ihbody ihrest =>
    obtain ⟨-, ⟨l, hl, -, -, hbody⟩, hrest⟩ := hc
    rw [loops, mem_cons, mem_append] at h
    rcases h with h | h | h
    · cases h
      rw [hl, Option.map_some, Option.some.injEq] at hid
      have htags := (hbody.path_isPrefix hx).subset (mem_append_right path (mem_singleton.2 hid.symm))
      exact (mem_filter.1 htags).1
    · exact ihbody hbody h
    · exact ihrest hrest h

/-- What is tagged with one of the loops lies in it, unless the loop is around the code. -/
theorem Labelled.exists_around (hx : x ∈ c.flatten) (hid : id ∈ ids) (htag : id ∈ x.loopIds) :
    id ∈ path ∨
      ∃ b e body, (b, e, body) ∈ c.loops ∧ e.loop.map LoopParams.id = some id ∧ x ∈ body.flatten := by
  have hfilter : id ∈ x.loopIds.filter (ids.contains ·) := mem_filter.2 ⟨htag, contains_iff_mem.2 hid⟩
  induction c generalizing path with
  | done => cases hx
  | op y rest ih =>
    rcases mem_cons.1 hx with rfl | hx
    · exact .inl (hc.1 ▸ hfilter)
    · exact ih hc.2 hx
  | loop b' e' body' rest ihbody ihrest =>
    obtain ⟨⟨hb, he⟩, ⟨l, hl, -, -, hbody⟩, hrest⟩ := hc
    simp only [flatten, mem_cons, mem_append] at hx
    rcases hx with rfl | hx | rfl | hx
    · exact .inl (hb ▸ hfilter)
    · rcases ihbody hbody hx with hpath | ⟨b, e, body, h, hname, hxbody⟩
      · rcases mem_append.1 hpath with hpath | hown
        · exact .inl hpath
        · exact .inr ⟨b', e', body', by simp [loops], by simp [hl, mem_singleton.1 hown], hx⟩
      · exact .inr ⟨b, e, body, by simp [loops, h], hname, hxbody⟩
    · exact .inl (he ▸ hfilter)
    · rcases ihrest hrest hx with hpath | ⟨b, e, body, h, hname, hxbody⟩
      · exact .inl hpath
      · exact .inr ⟨b, e, body, by simp [loops, h], hname, hxbody⟩

end Code

/-! ## Kernels that list code -/

/-- The kernel lists nested code whose loops have different names, and what stands in it is tagged
    with the loops around it. -/
structure Kernel.Bracketed (k : Kernel) (c : Code) : Prop where
  lists : k.Lists c.flatten
  nested : c.Nested c.flatten
  apart : c.names.Nodup
  labelled : c.Labelled c.names []

namespace Kernel

variable {k : Kernel} {c body : Code} {x b e : Expr} {id : LoopId}

/-- Nested code closes what it opens. -/
theorem Lists.balanced_append {xs : List Expr} (h : k.Lists xs) {d : Code} (hd : d.Nested xs)
    (hsub : ∀ x ∈ d.flatten, x ∈ xs) (opened : List ExprId) (rest : List Expr) :
    k.Balanced opened (d.flatten ++ rest) ↔ k.Balanced opened rest := by
  induction d generalizing opened rest with
  | done => exact Iff.rfl
  | op x d ih =>
    have hstep : k.Balanced opened (x :: (d.flatten ++ rest)) ↔ k.Balanced opened (d.flatten ++ rest) := by
      have hkind := hd.1
      rw [Balanced]
      cases hx : x.kind <;> first | exact Iff.rfl | (rw [hx] at hkind; cases hkind)
    exact hstep.trans (ih hd.2 (fun y hy => hsub y (mem_cons_of_mem x hy)) opened rest)
  | loop b e body d ihbody ihrest =>
    obtain ⟨htied, hbody, hrest⟩ := hd
    have hb : b ∈ xs := hsub b (by simp [Code.flatten])
    have he : e ∈ xs := hsub e (by simp [Code.flatten])
    rw [Code.flatten, cons_append, append_assoc, Balanced]
    simp only [htied.opens]
    rw [ihbody hbody (fun y hy => hsub y (by simp [Code.flatten, hy])), cons_append, Balanced]
    simp only [htied.closes]
    rw [← ihrest hrest (fun y hy => hsub y (by simp [Code.flatten, hy])) opened rest]
    constructor
    · rintro ⟨b', rest', hopened, -, -, hrest'⟩
      cases hopened
      exact hrest'
    · intro hrest'
      exact ⟨b.id, opened, rfl, h.loopEndOf hb he htied, h.loopBeginOf hb he htied, hrest'⟩

/-- Where markers are balanced, what comes before the marker that closes the innermost open loop is
    code, and so is everything where no loop is open. -/
theorem Balanced.exists_code {opened : List ExprId} {xs : List Expr} (h : k.Balanced opened xs) :
    ∃ d : Code, d.Linked k ∧ (opened = [] ∧ xs = d.flatten ∨ ∃ b rest e after, opened = b :: rest ∧
      xs = d.flatten ++ e :: after ∧ e.kind = .loopEnd ∧ k.loopEndOf b = .ok e.id ∧ k.Balanced rest after) := by
  -- Behind an opening marker there is code, its closing marker and then more code, so the length
  -- goes down twice.
  induction hn : xs.length using Nat.strongRecOn generalizing xs opened with
  | ind n ih =>
    subst hn
    cases xs with
    | nil => exact ⟨.done, trivial, .inl ⟨h, rfl⟩⟩
    | cons x xs =>
      rw [Balanced] at h
      split at h
      · next hkind =>
        obtain ⟨body, hbody, hcases⟩ := ih _ (Nat.lt_succ_self xs.length) h rfl
        rcases hcases with ⟨habsurd, -⟩ | ⟨b, rest, e, after, hopened, rfl, hclose, hends, hafter⟩
        · cases habsurd
        · obtain ⟨rfl, rfl⟩ := List.cons.inj hopened
          have hshort : after.length < (x :: (body.flatten ++ e :: after)).length := by
            simp only [length_cons, length_append]
            omega
          obtain ⟨d, hd, hrest⟩ := ih _ hshort hafter rfl
          refine ⟨.loop x e body d, ⟨⟨hkind, hclose, hends⟩, hbody, hd⟩, ?_⟩
          rcases hrest with ⟨rfl, rfl⟩ | ⟨b', rest', e', after', rfl, rfl, htail⟩
          · exact .inl ⟨rfl, rfl⟩
          · exact .inr ⟨b', rest', e', after', rfl, by simp [Code.flatten], htail⟩
      · next hkind =>
        obtain ⟨b, rest, rfl, hends, -, hrest⟩ := h
        exact ⟨.done, trivial, .inr ⟨b, rest, x, xs, rfl, rfl, hkind, hends, hrest⟩⟩
      · next hopen hclose =>
        have hmarker : x.kind.isMarker = false := by
          unfold OpKind.isMarker
          split
          · exact absurd ‹_› hopen
          · exact absurd ‹_› hclose
          · rfl
        obtain ⟨d, hd, hrest⟩ := ih _ (Nat.lt_succ_self xs.length) h rfl
        refine ⟨.op x d, ⟨hmarker, hd⟩, ?_⟩
        rcases hrest with ⟨rfl, rfl⟩ | ⟨b', rest', e', after', rfl, rfl, htail⟩
        · exact .inl ⟨rfl, rfl⟩
        · exact .inr ⟨b', rest', e', after', rfl, rfl, htail⟩

/-- A kernel with balanced markers lists code whose markers find each other. -/
theorem Balanced.exists_linked {xs : List Expr} (h : k.Balanced [] xs) :
    ∃ d : Code, d.flatten = xs ∧ d.Linked k := by
  obtain ⟨d, hd, hcases⟩ := h.exists_code
  rcases hcases with ⟨-, hxs⟩ | ⟨b, rest, e, after, habsurd, -⟩
  · exact ⟨d, hxs.symm, hd⟩
  · cases habsurd

namespace Bracketed

variable (h : k.Bracketed c)

include h

theorem nodup : c.flatten.Nodup := List.Nodup.of_map _ h.lists.nodup

theorem balanced : k.Balanced [] k.sequence := by
  have hall := h.lists.balanced_append h.nested (fun x hx => hx) [] []
  rw [append_nil] at hall
  rw [h.lists.sequence]
  exact hall.2 rfl

/-- The markers of the loops of a kernel are those of the code. -/
theorem loopPair_iff : k.LoopPair id b e ↔ e.loop.map LoopParams.id = some id ∧
    ∃ body, (b, e, body) ∈ c.loops := by
  constructor
  · intro hpair
    have hb : b ∈ c.flatten := h.lists.sequence ▸ hpair.opening
    have he : e ∈ c.flatten := h.lists.sequence ▸ hpair.closing
    obtain ⟨b', e', body, hloop, hbb⟩ := h.nested.exists_loop hb (by rw [hpair.opens]; rfl)
    have htied := h.nested.of_mem_loops hloop
    obtain ⟨hb', he', -⟩ := Code.mem_flatten_of_mem_loops hloop
    rcases hbb with rfl | rfl
    · have hends := h.lists.loopEndOf hb' he' htied
      rw [hpair.endOf, Except.ok.injEq] at hends
      obtain rfl : e = e' := h.lists.eq_of_id he he' hends
      exact ⟨hpair.named, body, hloop⟩
    · have hkind := htied.closes
      rw [hpair.opens] at hkind
      cases hkind
  · rintro ⟨hname, body, hloop⟩
    have htied := h.nested.of_mem_loops hloop
    obtain ⟨hb, he, -⟩ := Code.mem_flatten_of_mem_loops hloop
    refine ⟨?_, ?_, htied.opens, htied.closes, hname, h.lists.loopEndOf hb he htied, h.lists.loopBeginOf hb he htied⟩
    · rw [h.lists.sequence]
      exact hb
    · rw [h.lists.sequence]
      exact he

/-- A loop of the code has one pair of markers. -/
theorem existsUnique_loopPair (hid : id ∈ c.names) :
    ∃ b e, k.LoopPair id b e ∧ ∀ b' e', k.LoopPair id b' e' → b' = b ∧ e' = e := by
  obtain ⟨b, e, body, hloop, hname⟩ := Code.mem_names_iff.1 hid
  refine ⟨b, e, h.loopPair_iff.2 ⟨hname, body, hloop⟩, ?_⟩
  intro b' e' hpair
  obtain ⟨hname', body', hloop'⟩ := h.loopPair_iff.1 hpair
  cases Code.eq_of_name h.apart hloop hloop' hname hname'
  exact ⟨rfl, rfl⟩

/-- Every marker belongs to a loop of the code. -/
theorem exists_loopPair_of_marker (hx : x ∈ k.sequence) (hkind : x.kind.isMarker = true) :
    ∃ id ∈ c.names, ∃ b e, k.LoopPair id b e ∧ (x = b ∨ x = e) := by
  rw [h.lists.sequence] at hx
  obtain ⟨b, e, body, hloop, hxb⟩ := h.nested.exists_loop hx hkind
  obtain ⟨id, hname⟩ := h.labelled.exists_name hloop
  exact ⟨id, Code.mem_names_iff.2 ⟨b, e, body, hloop, hname⟩, b, e,
    h.loopPair_iff.2 ⟨hname, body, hloop⟩, hxb⟩

/-- A closing marker of the kernel closes a loop of the code. -/
theorem exists_loop_of_closing (he : e ∈ k.sequence) (hkind : e.kind = .loopEnd) :
    ∃ b body, (b, e, body) ∈ c.loops := by
  rw [h.lists.sequence] at he
  obtain ⟨b, e', body, hloop, hmarker⟩ := h.nested.exists_loop he (by rw [hkind]; rfl)
  rcases hmarker with rfl | rfl
  · rw [(h.nested.of_mem_loops hloop).opens] at hkind
    cases hkind
  · exact ⟨b, body, hloop⟩

/-- Closing markers are told apart by the names of their loops. -/
theorem closing_unique {e' : Expr} (he : e ∈ k.sequence) (hkind : e.kind = .loopEnd)
    (hid : e.loop.map LoopParams.id = some id) (he' : e' ∈ k.sequence) (hkind' : e'.kind = .loopEnd)
    (hid' : e'.loop.map LoopParams.id = some id) : e' = e := by
  obtain ⟨b, body, hloop⟩ := h.exists_loop_of_closing he hkind
  obtain ⟨b', body', hloop'⟩ := h.exists_loop_of_closing he' hkind'
  have hsame := Code.eq_of_name h.apart hloop' hloop hid' hid
  injection hsame with _ hsame
  injection hsame

/-- What is between the markers of a loop is its body. -/
theorem between_iff_mem (hloop : (b, e, body) ∈ c.loops) : k.Between b x e ↔ x ∈ body.flatten := by
  obtain ⟨pre, post, hflat⟩ := Code.flatten_of_mem_loops hloop
  have hnodup := h.nodup
  rw [Between, h.lists.sequence]
  rw [hflat] at hnodup ⊢
  have hb : b ∉ pre := by
    intro hmem
    exact disjoint_of_nodup_append hnodup hmem mem_cons_self
  have he : e ∉ post := by
    have hright := (nodup_cons.1 (nodup_append.1 hnodup).2.1).2
    exact (nodup_cons.1 (nodup_append.1 hright).2.1).1
  constructor
  · intro hsub
    -- nothing equals `b` before it, and nothing equals `e` behind it
    obtain ⟨left, right, hsplit, hleft, hright⟩ := sublist_append_iff.1 hsub
    obtain rfl : left = [] := by
      cases left with
      | nil => rfl
      | cons y left =>
        obtain rfl : b = y := (List.cons.inj hsplit).1
        exact absurd (hleft.subset mem_cons_self) hb
    rw [nil_append] at hsplit
    rw [← hsplit, cons_sublist_cons] at hright
    obtain ⟨left, right, hsplit, hleft, hright⟩ := sublist_append_iff.1 hright
    cases left with
    | nil =>
      rw [nil_append] at hsplit
      rw [← hsplit] at hright
      have hmem : e ∈ post := by
        have htail : Sublist [e] post := by
          have := hright.tail
          simpa using this
        exact htail.subset mem_cons_self
      exact absurd hmem he
    | cons y left =>
      obtain rfl : x = y := (List.cons.inj hsplit).1
      exact hleft.subset mem_cons_self
  · intro hx
    have hbody : Sublist [x] body.flatten := singleton_sublist.2 hx
    have hend : Sublist [e] (e :: post) := singleton_sublist.2 mem_cons_self
    exact ((hbody.append hend).cons_cons b).trans (sublist_append_right pre _)

/-- An expression is between the markers of a loop exactly if it is tagged with the loop. -/
theorem between_iff (hpair : k.LoopPair id b e) (hx : x ∈ k.sequence) : k.Between b x e ↔
    id ∈ x.loopIds := by
  rw [h.lists.sequence] at hx
  obtain ⟨hname, body, hloop⟩ := h.loopPair_iff.1 hpair
  rw [h.between_iff_mem hloop]
  constructor
  · exact h.labelled.mem_loopIds hloop hname
  · intro htag
    have hid : id ∈ c.names := Code.mem_names_iff.2 ⟨b, e, body, hloop, hname⟩
    rcases h.labelled.exists_around hx hid htag with hpath | ⟨b', e', body', hloop', hname', hmem⟩
    · cases hpath
    · cases Code.eq_of_name h.apart hloop hloop' hname hname'
      exact hmem

end Bracketed

end Kernel

end KernelLoops
