import KernelLoops.Proofs.TakingIn

set_option autoImplicit false

/-! # Fusing loops

On a kernel that lists a schedule the fusion pass comes to an end, and what it leaves is a schedule
of the same expressions, in which fewer loops hold what was in more loops before. -/

namespace KernelLoops

open List

variable {k' k'' : Kernel} {xs : List Expr} {info : LoopInfo} {e : ExprId}
  {entries exits : List Port}
  {previous : Option (List LoopId)}

/-! ## One loop taken in -/

theorem Joint.perm {ys : List Expr} {f s : LoopId} {oldExits oldEntries : List Port}
    (h : Joint xs f s oldExits oldEntries exits entries) (hperm : xs.Perm ys) :
    Joint ys f s oldExits oldEntries exits entries := by
  have hcarries {p : Port} {t : TensorId} : p.Carries ys t ↔ p.Carries xs t := by
    simp only [Port.Carries, hperm.mem_iff]
  exact
    { nodup := h.nodup
      mem_entries := fun p => by simp only [hcarries]; exact h.mem_entries p
      exits_sub := h.exits_sub
      used := fun q hq t hqt z hz => h.used q hq t (hcarries.1 hqt) z (hperm.mem_iff.2 hz) }

/-- What is not in the loop that is taken in stays as it is. -/
theorem map_joined_of_not_inLoop {level : Nat} {target id : LoopId}
    (h : ∀ x ∈ xs, x.inLoop target = false) :
    xs.map (·.joined level target id) = xs := by
  refine (map_congr_left fun x hx => ?_).trans xs.map_id
  rw [Expr.joined, if_neg fun htarget => ?_]
  · rfl
  · exact ne_of_not_inLoop (h x hx) htarget rfl

theorem map_joined_around {level : Nat} {target id : LoopId} {T : List Expr} (as bs : List Expr)
    (h : ∀ x ∈ as ++ bs, x.inLoop target = false) :
    (as ++ T ++ bs).map (·.joined level target id) = as ++ T.map (·.joined level target id) ++ bs := by
  rw [map_append, map_append, map_joined_of_not_inLoop fun x hx => h x (mem_append_left _ hx),
    map_joined_of_not_inLoop fun x hx => h x (mem_append_right _ hx)]

theorem head?_map_joined {level : Nat} {target id : LoopId} :
    (xs.map (·.joined level target id)).head?.map Expr.id = xs.head?.map Expr.id := by
  rw [← head?_map, map_id_joined, head?_map]

section Runs

variable {k : Kernel} {depth level : Nat} {id target : LoopId} {pre run post : List Expr}
  {x y : Expr}

/-- A loop of the schedule is in the table, with its boundary. -/
theorem Kernel.Fusible.exists_info (hk : k.Fusible depth xs) (hx : x ∈ xs)
    (hid : x.loopIds[level]? = some id)
    (hreal : id.isSentinel = false) : ∃ info, k.loops.get? id = some info ∧ info.Bounds xs id := by
  obtain ⟨info, hinfo⟩ := Option.isSome_iff_exists.1
    (hk.scheduled.isSome_of_inLoop hx (inLoop_iff.2 ⟨level, hid⟩) hreal)
  exact ⟨info, hinfo, hk.scheduled.bounds (id, info) (LoopTable.mem_of_get? hinfo)⟩

/-- A loop that makes what the current loop uses lies before it. -/
theorem Run.exists_before (hr : Run level id pre run post)
    (hk : k.Fusible depth (pre ++ run ++ post))
    (hx : x ∈ pre ++ run ++ post) (htarget : x.loopIds[level]? = some target) (hreal : target.isSentinel = false)
    (hne : target ≠ id) (hy : y ∈ run) (hxy : x.Precedes y) :
    ∃ a T b, pre = a ++ T ++ b ∧ x ∈ T ∧ Run level target a T (b ++ run ++ post) := by
  rcases hr.beside hk.scheduled hk.nested hx htarget hreal hne with hbefore | ⟨a, T, b, rfl, hxT, -⟩
  · exact hbefore
  · have hordered := (pairwise_append.1 hk.scheduled.ordered).2.2 y (by simp [hy]) x (by simp [hxT])
    exact absurd hxy hordered

/-- A loop that uses what the current loop makes lies behind it. -/
theorem Run.exists_behind (hr : Run level id pre run post)
    (hk : k.Fusible depth (pre ++ run ++ post))
    (hx : x ∈ pre ++ run ++ post) (htarget : x.loopIds[level]? = some target) (hreal : target.isSentinel = false)
    (hne : target ≠ id) (hy : y ∈ run) (hyx : y.Precedes x) :
    ∃ a T b, post = a ++ T ++ b ∧ x ∈ T ∧ Run level target (pre ++ run ++ a) T b := by
  rcases hr.beside hk.scheduled hk.nested hx htarget hreal hne with ⟨a, T, b, rfl, hxT, -⟩ | hbehind
  · have hinit := (pairwise_append.1 hk.scheduled.ordered).1
    have hordered := (pairwise_append.1 hinit).2.2 x (by simp [hxT]) y hy
    exact absurd hyx hordered
  · exact hbehind

end Runs

namespace Fusion

open Edit

/-- The range is where the run of the loop is. -/
structure Span.Covers (span : Span) (level : Nat) (id : LoopId) (pre run post : List Expr) : Prop
    extends Run level id pre run post where
  start : run.head?.map Expr.id = some span.start
  stop : span.stop = post.head?.map Expr.id

/-- One loop was taken in by the loop `id`, which is now at `span`. -/
structure Fused (depth level : Nat) (id : LoopId) (k : Kernel) (span : Span) (k' : Kernel) :
    Prop where
  covers : ∃ pre run post, k'.Fusible depth (pre ++ run ++ post) ∧ span.Covers level id pre run post
  same : Rearranged k k'
  fewer : k'.loops.size < k.loops.size
  ahead : ∀ e ∈ k.order, (k.expr e).inLoop id = true →
    (k'.expr e).inLoop id = true ∧ (Kernel.behind e k'.order).length = (Kernel.behind e k.order).length

variable {k : Kernel} {depth level budget : Nat} {id target : LoopId} {span : Span}
  {pre run post : List Expr}
  {x y : Expr} {entry exit : Port}

theorem increment_eq_of_compatible {a b : LoopInfo} (h : compatible a b = true) :
    a.increment = b.increment :=
  of_decide_eq_true (Bool.and_eq_true_iff.1 h).2

/-- Moving things around on either side of a loop leaves as much behind its expressions as there
    was. -/
theorem ahead_of_lists {pre' post' : List Expr} (hr : Run level id pre run post)
    (hl : k.Lists (pre ++ run ++ post))
    (hl' : k'.Lists (pre' ++ run ++ post')) (hlength : post'.length = post.length) :
    ∀ e ∈ k.order, (k.expr e).inLoop id = true →
      (k'.expr e).inLoop id = true ∧ (Kernel.behind e k'.order).length = (Kernel.behind e k.order).length := by
  intro e he hin
  obtain ⟨z, hz, rfl⟩ := hl.mem_order.1 he
  rw [hl.read z hz] at hin
  obtain ⟨c, d, rfl⟩ := append_of_mem ((hr.mem_iff hz).1 hin)
  have hhere : k.Lists ((pre ++ c) ++ z :: (d ++ post)) := by simpa using hl
  have hthere : k'.Lists ((pre' ++ c) ++ z :: (d ++ post')) := by simpa using hl'
  rw [hl'.read z (by simp), hhere.behind, hthere.behind]
  exact ⟨hin, by simp [hlength]⟩

theorem Span.Covers.exists_info (hspan : span.Covers level id pre run post)
    (hk : k.Fusible depth (pre ++ run ++ post)) :
    ∃ info, k.loops.get? id = some info ∧ info.Bounds (pre ++ run ++ post) id := by
  obtain ⟨x, hx⟩ := exists_mem_of_ne_nil run hspan.ne
  exact hk.exists_info (by simp [hx]) (hspan.within x hx) hspan.real

/-- The outcome once a loop that was moved next to the current one is taken in. -/
theorem Fused.of_meeting {k1 : Kernel} {p q p' q' F S : List Expr} {f s : LoopId}
    {exits entries : List Port}
    {first second other current : LoopInfo} {g : LoopInfo → LoopInfo} (hk : k.Fusible depth (pre ++ run ++ post))
    (hr : Run level id pre run post) (hm : Meeting level target id f s p F S q)
    (hperm : (pre ++ run ++ post).Perm (p ++ F ++ S ++ q)) (hs : Scheduled depth k.loops (p ++ F ++ S ++ q))
    (hfirst : first.Bounds (pre ++ run ++ post) f) (hsecond : second.Bounds (pre ++ run ++ post) s)
    (hjoint : Joint (pre ++ run ++ post) f s first.exits second.entries exits entries)
    (hentries : ∀ l, (g l).entries = first.entries ++ entries) (hexits : ∀ l, (g l).exits = exits ++ second.exits)
    (hinc : ∀ l, (g l).increment = l.increment) (hother : k.loops.get? target = some other)
    (hcurrent : k.loops.get? id = some current) (hfits : current.increment = other.increment) (hsame : Shuffled k k1)
    (hlists : k1.Lists ((p ++ F ++ S ++ q).map (·.joined level target id)))
    (hstart : (F ++ S).head?.map Expr.id = some span.start) (hstop : span.stop = q.head?.map Expr.id)
    (hrun : (p ++ F ++ S ++ q).map (·.joined level target id) = p' ++ run ++ q') (hlength : q'.length = post.length) :
    Fused depth level id k span { k1 with loops := (k1.loops.modify id g).erase target } := by
  have hn := hk.nested.perm hperm
  have hfusible : Kernel.Fusible depth { k1 with loops := (k1.loops.modify id g).erase target }
      ((p ++ F ++ S ++ q).map (·.joined level target id)) := by
    refine ⟨hk.depth_le, hlists.congr rfl rfl rfl (Nat.le_refl _) (Nat.le_refl _) fun _ _ => rfl, ?_, hn.join hm, ?_⟩
    · rw [hsame.loops]
      exact hs.join hn hm (hfirst.perm hperm) (hsecond.perm hperm) (hjoint.perm hperm) hentries hexits
    · rw [hsame.loops]
      refine (hk.uncrossed.perm hperm).join hinc (by rw [hother]; rfl) fun a ha b hb => ?_
      rw [← Option.some.inj (hother.symm.trans ha), ← Option.some.inj (hcurrent.symm.trans hb), hfits]
  refine ⟨⟨p.map (·.joined level target id), (F ++ S).map (·.joined level target id), q.map (·.joined level target id),
    by simpa using hfusible, ⟨hr.real, by simp [hm.first_ne], ?_, ?_⟩, ?_, ?_⟩, ⟨hsame.order, hsame.expr, ?_⟩, ?_, ?_⟩
  · exact forall_mem_map.2 fun x hx => hm.getElem?_joined hx
  · rw [← map_append]
    refine forall_mem_map.2 fun x hx => ?_
    rw [hm.inLoop (by simp only [mem_append] at hx ⊢; tauto),
      hm.only_first x (by simp only [mem_append] at hx ⊢; tauto),
      hm.only_second x (by simp only [mem_append] at hx ⊢; tauto)]
    rfl
  · rw [head?_map_joined, hstart]
  · rw [head?_map_joined, hstop]
  · rw [hsame.rest]
  · rw [← LoopTable.size_modify k.loops id g, ← hsame.loops]
    refine LoopTable.size_erase_lt ?_
    rw [LoopTable.get?_modify, Option.isSome_map, hsame.loops, hother]
    rfl
  · exact ahead_of_lists hr hk.lists (hrun ▸ hfusible.lists) hlength

section Searching

variable (hk : k.Fusible depth (pre ++ run ++ post)) (hspan : span.Covers level id pre run post)
  (hlevel : level < depth) (hbudget : k.order.length ≤ budget)

include hk hspan hlevel hbudget

/-- A producing loop is taken in or left alone. -/
theorem fuseProducer_ok (hx : x ∈ pre ++ run ++ post)
    (htarget : x.loopIds[level]? = some target) (hreal : target.isSentinel = false) (hne : target ≠ id)
    (hy : y ∈ run) (hentry : entry.expr = y.id) (hxy : x.Precedes y) :
    fuseProducer budget entry id target level span k = .ok none k ∨
      ∃ span' k1, fuseProducer budget entry id target level span k = .ok (some span') k1 ∧
        Fused depth level id k span' { k1 with loops := k1.loops.erase target } := by
  have hsmall : level < 2 ^ 63 := Nat.lt_of_lt_of_le hlevel hk.depth_le
  obtain ⟨other, hother, hotherBounds⟩ := hk.exists_info hx htarget hreal
  obtain ⟨current, hcurrent, hcurrentBounds⟩ := hspan.exists_info hk
  unfold fuseProducer
  rw [bind_run_ok (ask_run_ok (LoopTable.info_eq_ok.2 hother)),
    bind_run_ok (ask_run_ok (LoopTable.info_eq_ok.2 hcurrent))]
  by_cases hcompatible : compatible current other = true
  · simp only [hcompatible, Bool.not_true, Bool.false_eq_true, if_false]
    have hinc := increment_eq_of_compatible hcompatible
    obtain ⟨a, T, b, rfl, hxT, hrunT⟩ := hspan.toRun.exists_before hk hx htarget hreal hne hy hxy
    have hxs : a ++ T ++ b ++ run ++ post = a ++ T ++ (b ++ run ++ post) := by simp
    obtain ⟨start, hstart, hbounds⟩ := loopBounds_ok (hxs ▸ hk.lists) hrunT hother (hxs ▸ hotherBounds)
    have htake : x.loopIds.take level = y.loopIds.take level :=
      hk.uncrossed x hx y (by simp [hy]) hxy level (List.getElem?_eq_some_iff.1 htarget).1 target htarget id
        (hspan.within y hy) other hother current hcurrent hinc.symm
    have hfacing : Facing level target id a T b run post := .of_runs hrunT hspan.toRun hk.nested hxT hy htake
    obtain ⟨fits, hfits, hfree⟩ := producerFits_ok hk hfacing hlevel hotherBounds hy hentry
    obtain ⟨exits, entries, hjoin, hjoint⟩ :=
      joinBoundary_ok hk.lists hxs (fun z hz => hfacing.mem_first hz) hstart hotherBounds hcurrentBounds
    rw [bind_run_ok (ask_run_ok hbounds)]
    simp only []
    rw [bind_run_ok (ask_run_ok (hspan.stop ▸ hfits))]
    cases fits with
    | false => exact .inl rfl
    | true =>
      right
      obtain ⟨here, hhere, hhereId⟩ := Option.map_eq_some_iff.1 hspan.start
      have hlength : T.length ≤ budget := by
        rw [hk.lists.order, length_map] at hbudget
        simp only [length_append] at hbudget
        omega
      obtain ⟨k1, htake, hsame, hlists⟩ := takeIn_before id hk.lists hfacing.first hsmall hlength hstart hhere
      rw [hhereId] at htake
      simp only [Bool.not_true, Bool.false_eq_true, if_false]
      rw [bind_run_ok (ask_run_ok hjoin)]
      simp only []
      rw [bind_run_ok htake]
      refine ⟨_, _, rfl, ?_⟩
      have hmap : (a ++ b ++ T ++ run ++ post).map (·.joined level target id) =
          a ++ b ++ T.map (·.joined level target id) ++ run ++ post := by
        simpa using map_joined_around (a ++ b) (run ++ post) fun x hx => hfacing.only_first x (by simpa using hx)
      have hperm : (a ++ T ++ b ++ run ++ post).Perm (a ++ b ++ T ++ run ++ post) := by
        simp only [append_assoc]
        exact (perm_append_comm_assoc T b _).append_left a
      have hmeeting : Meeting level target id target id (a ++ b) T run post :=
        { hfacing.lowered with pair := .inl ⟨rfl, rfl⟩, ne := hne.symm }
      refine .of_meeting hk hspan.toRun hmeeting hperm (hk.scheduled.lower hfacing hk.nested (hfree rfl)) hotherBounds
        hcurrentBounds hjoint ?_ ?_ ?_ hother hcurrent hinc hsame (hmap ▸ hlists) ?_ hspan.stop hmap rfl
      · exact fun _ => rfl
      · exact fun _ => rfl
      · exact fun _ => rfl
      · simp [hstart]
  · refine .inl ?_
    simp only [hcompatible]
    rfl

omit hk hspan hlevel hbudget in
/-- Where the range ends once the loop behind the current one is part of it. -/
theorem Span.Covers.stop_eq {a b T : List Expr} {start : Expr}
    (hspan : span.Covers level id pre run (a ++ T ++ b))
    (hl : k.Lists (pre ++ run ++ a ++ T ++ b)) (hstart : T.head? = some start) :
    (if (span.stop != some start.id) = true then span else { span with stop := b.head?.map Expr.id }) =
      { span with stop := (a ++ b).head?.map Expr.id } := by
  cases a with
  | nil =>
    have hstop : span.stop = some start.id := by simpa [hstart] using hspan.stop
    rw [hstop, bne_self_eq_false]
    rfl
  | cons m a =>
    have hstop : span.stop = some m.id := by simpa using hspan.stop
    have hne : some m.id ≠ some start.id := by
      simpa [hstart] using ne_head? (show k.Lists (pre ++ run ++ m :: a ++ (T ++ b)) by simpa using hl)
    rw [hstop, if_pos (bne_iff_ne.2 hne)]
    obtain ⟨first, stop⟩ := span
    simpa using hstop

/-- A consuming loop is taken in or left alone. -/
theorem fuseConsumer_ok (hx : x ∈ pre ++ run ++ post)
    (htarget : x.loopIds[level]? = some target) (hreal : target.isSentinel = false) (hne : target ≠ id)
    (hy : y ∈ run) (hexit : exit.expr = y.id) (hyx : y.Precedes x) :
    fuseConsumer budget exit id target level span k = .ok none k ∨
      ∃ span' k1, fuseConsumer budget exit id target level span k = .ok (some span') k1 ∧
        Fused depth level id k span' { k1 with loops := k1.loops.erase target } := by
  have hsmall : level < 2 ^ 63 := Nat.lt_of_lt_of_le hlevel hk.depth_le
  obtain ⟨other, hother, hotherBounds⟩ := hk.exists_info hx htarget hreal
  obtain ⟨current, hcurrent, hcurrentBounds⟩ := hspan.exists_info hk
  unfold fuseConsumer
  rw [bind_run_ok (ask_run_ok (LoopTable.info_eq_ok.2 hother)),
    bind_run_ok (ask_run_ok (LoopTable.info_eq_ok.2 hcurrent))]
  by_cases hcompatible : compatible current other = true
  · simp only [hcompatible, Bool.not_true, Bool.false_eq_true, if_false]
    have hinc := increment_eq_of_compatible hcompatible
    obtain ⟨a, T, b, rfl, hxT, hrunT⟩ := hspan.toRun.exists_behind hk hx htarget hreal hne hy hyx
    have hxs : pre ++ run ++ (a ++ T ++ b) = pre ++ run ++ a ++ T ++ b := by simp
    have hk' : k.Fusible depth (pre ++ run ++ a ++ T ++ b) := hxs ▸ hk
    obtain ⟨start, hstart, hbounds⟩ := loopBounds_ok hk'.lists hrunT hother (hxs ▸ hotherBounds)
    have htake : y.loopIds.take level = x.loopIds.take level :=
      hk.uncrossed y (by simp [hy]) x hx hyx level (List.getElem?_eq_some_iff.1 (hspan.within y hy)).1 id
        (hspan.within y hy) target htarget current hcurrent other hother hinc
    have hfacing : Facing level id target pre run a T b := .of_runs hspan.toRun hrunT hk'.nested hy hxT htake
    obtain ⟨here, hhere, hhereId⟩ := Option.map_eq_some_iff.1 hspan.start
    obtain ⟨fits, hfits, hfree⟩ := consumerFits_ok hk' hfacing hlevel (hxs ▸ hotherBounds) hy hexit hhere
    obtain ⟨exits, entries, hjoin, hjoint⟩ :=
      joinBoundary_ok hk.lists rfl (fun z hz => hspan.mem_iff hz) hhere hcurrentBounds hotherBounds
    rw [hhereId] at hfits hjoin
    rw [bind_run_ok (ask_run_ok hfits)]
    cases fits with
    | false => exact .inl rfl
    | true =>
      right
      have hlength : T.length ≤ budget := by
        rw [hk.lists.order, length_map] at hbudget
        simp only [length_append] at hbudget
        omega
      obtain ⟨k1, htake, hsame, hlists⟩ := takeIn_behind id hk'.lists hfacing.second hsmall hlength hstart
      rw [← hspan.stop] at htake hjoin
      simp only [Bool.not_true, Bool.false_eq_true, if_false]
      rw [bind_run_ok (ask_run_ok hbounds)]
      simp only []
      rw [bind_run_ok (ask_run_ok hjoin)]
      simp only []
      rw [bind_run_ok htake]
      refine ⟨_, _, rfl, ?_⟩
      rw [hspan.stop_eq hk'.lists hstart]
      have hmap : (pre ++ run ++ T ++ (a ++ b)).map (·.joined level target id) =
          pre ++ run ++ (T.map (·.joined level target id) ++ (a ++ b)) := by
        rw [map_joined_around (pre ++ run) (a ++ b) fun x hx => hfacing.only_second x (by simpa using hx), append_assoc]
      have hperm : (pre ++ run ++ (a ++ T ++ b)).Perm (pre ++ run ++ T ++ (a ++ b)) := by
        simp only [append_assoc]
        exact ((perm_append_comm_assoc a T b).append_left run).append_left pre
      have hmeeting : Meeting level target id id target pre run T (a ++ b) :=
        { hfacing.lifted with pair := .inr ⟨rfl, rfl⟩, ne := hne.symm }
      refine .of_meeting hk hspan.toRun hmeeting hperm ?_ hcurrentBounds hotherBounds hjoint ?_ ?_
        ?_ hother hcurrent hinc
        hsame (hmap ▸ by simpa using hlists) ?_ ?_ hmap ?_
      · simpa using hk'.scheduled.lift hfacing hk'.nested (hfree rfl)
      · exact fun _ => rfl
      · exact fun _ => rfl
      · exact fun _ => rfl
      · rw [head?_append_of_ne_nil run hspan.ne]
        exact hspan.start
      · rfl
      · simp only [length_append, length_map]
        omega
  · refine .inl ?_
    simp only [hcompatible]
    rfl

/-! ## Looking for loops to take in -/

/-- Nothing was taken in, or one loop was. -/
def Looked (depth level : Nat) (id : LoopId) (k : Kernel) (r : Option Span) (k' : Kernel) : Prop :=
  r = none ∧ k' = k ∨ ∃ span, r = some span ∧ Fused depth level id k span k'

omit hk hspan hlevel hbudget in
theorem neighbourLoop_ok (h : Scheduled depth k.loops xs) (hlevel : level < depth) (hx : x ∈ xs) :
    ∃ i, neighbourLoop x level depth = .ok i ∧ x.loopIds[level]? = some i := by
  obtain ⟨i, hi, hat⟩ := fetch_level h hlevel hx
  refine ⟨i, ?_, hat⟩
  unfold neighbourLoop
  rw [if_neg (not_not.2 (h.levels x hx))]
  exact hi

theorem fuseProducers_ok (hbounds : info.Bounds (pre ++ run ++ post) id)
    (hsub : ∀ p ∈ entries, p ∈ info.entries) :
    ∃ r k', fuseProducers budget id level depth span entries k = .ok r k' ∧ Looked depth level id k r k' := by
  induction entries with
  | nil => exact ⟨none, k, rfl, .inl ⟨rfl, rfl⟩⟩
  | cons entry entries ih =>
    have ih := ih fun p hp => hsub p (mem_cons_of_mem _ hp)
    obtain ⟨hside, y, hy, hyin, hyid, t, ht, hmade⟩ :=
      mem_entryPorts.1 (hbounds.entries.mem_iff.1 (hsub entry mem_cons_self))
    rw [fuseProducers, bind_run_ok (ask_run_ok (hk.lists.tensorAt hy hyid (by rw [hside]; exact ht))), get_bind_run]
    unfold Kernel.producer?
    cases hproducer : (k.producers t.id).head? with
    | none => exact ih
    | some port =>
      obtain ⟨c, hc, hcid, hmakes⟩ := hk.lists.of_head?_producers hproducer
      simp only [Option.map_some, ← hcid, hk.lists.read c hc]
      split
      · exact ih
      · obtain ⟨target, htarget, hat⟩ := neighbourLoop_ok hk.scheduled hlevel hc
        have hne : target ≠ id := by
          rintro rfl
          rw [hmade c hc (inLoop_iff.2 ⟨level, hat⟩)] at hmakes
          cases hmakes
        rw [bind_run_ok (ask_run_ok htarget), if_neg hne]
        split
        · exact ih
        · next hskip =>
            have hreal : target.isSentinel = false := by simpa using hskip
            have hprecedes : c.Precedes y := hk.scheduled.precedes hc hy (inLoop_iff.2 ⟨level, hat⟩) hyin hreal
              hspan.real hmakes (Expr.uses_of_getElem? ht)
            rcases fuseProducer_ok hk hspan hlevel hbudget hc hat hreal hne ((hspan.mem_iff hy).1 hyin) hyid.symm
              hprecedes with hnone | ⟨span', k1, hsome, hfused⟩
            · rw [bind_run_ok hnone]
              exact ih
            · rw [bind_run_ok hsome]
              exact ⟨_, _, rfl, .inr ⟨span', rfl, hfused⟩⟩

theorem fuseConsumersOf_ok (hy : y ∈ run) (hexit : exit.expr = y.id)
    {t : TensorId} (hmakes : y.makes t = true) {users : List Port} (hsub : ∀ p ∈ users, p ∈ k.consumers t) :
    ∃ r k', fuseConsumersOf budget id level depth span exit users k = .ok r k' ∧ Looked depth level id k r k' := by
  induction users with
  | nil => exact ⟨none, k, rfl, .inl ⟨rfl, rfl⟩⟩
  | cons user users ih =>
    have ih := ih fun p hp => hsub p (mem_cons_of_mem _ hp)
    obtain ⟨c, hc, hcid, -, u, hu, hut⟩ := hk.lists.mem_consumers.1 (hsub user mem_cons_self)
    rw [fuseConsumersOf, get_bind_run]
    simp only [hcid, hk.lists.read c hc]
    split
    · exact ih
    · obtain ⟨target, htarget, hat⟩ := neighbourLoop_ok hk.scheduled hlevel hc
      rw [bind_run_ok (ask_run_ok htarget)]
      split
      · exact ih
      · next hskip =>
          have hskip : target ≠ id ∧ target.isSentinel = false := by simpa using hskip
          have hprecedes : y.Precedes c := hk.scheduled.precedes (show y ∈ pre ++ run ++ post by simp [hy]) hc
            (inLoop_iff.2 ⟨level, hspan.within y hy⟩) (inLoop_iff.2 ⟨level, hat⟩) hspan.real hskip.2 hmakes
            (hut ▸ Expr.uses_of_getElem? hu)
          rcases fuseConsumer_ok hk hspan hlevel hbudget hc hat hskip.2 hskip.1 hy hexit hprecedes with
            hnone | ⟨span', k1, hsome, hfused⟩
          · rw [bind_run_ok hnone]
            exact ih
          · rw [bind_run_ok hsome]
            exact ⟨_, _, rfl, .inr ⟨span', rfl, hfused⟩⟩

theorem fuseConsumers_ok (hbounds : info.Bounds (pre ++ run ++ post) id)
    (hsub : ∀ p ∈ exits, p ∈ info.exits) :
    ∃ r k', fuseConsumers budget id level depth span exits k = .ok r k' ∧ Looked depth level id k r k' := by
  induction exits with
  | nil => exact ⟨none, k, rfl, .inl ⟨rfl, rfl⟩⟩
  | cons exit exits ih =>
    have ih := ih fun p hp => hsub p (mem_cons_of_mem _ hp)
    obtain ⟨hside, y, hy, hyin, hyid, t, ht⟩ := mem_outputPorts.1 (hbounds.own exit (hsub exit mem_cons_self))
    rw [fuseConsumers, bind_run_ok (ask_run_ok (hk.lists.tensorAt hy hyid (by rw [hside]; exact ht))), get_bind_run]
    obtain ⟨r, k', hrun, hlooked⟩ := fuseConsumersOf_ok hk hspan hlevel hbudget ((hspan.mem_iff hy).1 hyin) hyid.symm
      (Expr.makes_of_getElem? ht) fun _ hp => hp
    rw [bind_run_ok hrun]
    rcases hlooked with ⟨rfl, rfl⟩ | ⟨span', rfl, hfused⟩
    · exact ih
    · exact ⟨some span', k', rfl, .inr ⟨span', rfl, hfused⟩⟩

end Searching

/-! ## Fusing around a loop -/

/-- The pass has come to a schedule of the same expressions that has no more loops than before. -/
structure Reached (depth : Nat) (k k' : Kernel) : Prop where
  fusible : ∃ xs, k'.Fusible depth xs
  same : Rearranged k k'
  fewer : k'.loops.size ≤ k.loops.size

theorem Reached.refl (hk : k.Fusible depth xs) : Reached depth k k :=
  ⟨⟨xs, hk⟩, .refl k, Nat.le_refl _⟩

theorem Reached.trans (h : Reached depth k k') (h' : Reached depth k' k'') : Reached depth k k'' :=
  ⟨h'.fusible, h.same.trans h'.same, Nat.le_trans h'.fewer h.fewer⟩

/-- Any number of loops were taken in by the loop `id`. -/
structure Settled (depth : Nat) (id : LoopId) (k k' : Kernel) : Prop extends Reached depth k k' where
  ahead : ∀ e ∈ k.order, (k.expr e).inLoop id = true →
    (k'.expr e).inLoop id = true ∧ (Kernel.behind e k'.order).length = (Kernel.behind e k.order).length

theorem Settled.refl (hk : k.Fusible depth xs) (id : LoopId) : Settled depth id k k :=
  ⟨.refl hk, fun _ _ hin => ⟨hin, rfl⟩⟩

theorem Settled.trans (h : Settled depth id k k') (h' : Settled depth id k' k'') :
    Settled depth id k k'' := by
  refine ⟨h.toReached.trans h'.toReached, fun e he hin => ?_⟩
  obtain ⟨hin', hlength⟩ := h.ahead e he hin
  obtain ⟨hin'', hlength'⟩ := h'.ahead e (h.same.order.mem_iff.2 he) hin'
  exact ⟨hin'', hlength'.trans hlength⟩

theorem Fused.settled (h : Fused depth level id k span k') : Settled depth id k k' := by
  obtain ⟨pre, run, post, hk', -⟩ := h.covers
  exact ⟨⟨⟨_, hk'⟩, h.same, Nat.le_of_lt h.fewer⟩, h.ahead⟩

/-- Rounds of taking in loops come to an end, since each loop that is taken in leaves fewer. -/
theorem fuseRounds_ok {rounds : Nat} (hk : k.Fusible depth (pre ++ run ++ post))
    (hspan : span.Covers level id pre run post) (hlevel : level < depth) (hbudget : k.order.length ≤ budget)
    (hrounds : k.loops.size < rounds) (modified : Bool) :
    ∃ changed k', fuseRounds budget id level depth rounds span modified k = .ok changed k' ∧ Settled depth id k k' := by
  induction rounds generalizing k span pre run post modified with
  | zero => cases hrounds
  | succ rounds ih =>
    obtain ⟨info, hinfo, hbounds⟩ := hspan.exists_info hk
    obtain ⟨up, k1, hup, hlooked⟩ := fuseProducers_ok hk hspan hlevel hbudget hbounds fun _ hp => hp
    have hhere : Settled depth id k k1 ∧ (up.isSome = true → k1.loops.size < k.loops.size) ∧
        ∃ pre run post, k1.Fusible depth (pre ++ run ++ post) ∧ (up.getD span).Covers level id pre run post := by
      rcases hlooked with ⟨rfl, rfl⟩ | ⟨span1, rfl, hfused⟩
      · exact ⟨.refl hk id, fun hsome => absurd hsome (by simp), pre, run, post, hk, hspan⟩
      · exact ⟨hfused.settled, fun _ => hfused.fewer, hfused.covers⟩
    obtain ⟨hsettled, hless, pre1, run1, post1, hk1, hspan1⟩ := hhere
    obtain ⟨info1, hinfo1, hbounds1⟩ := hspan1.exists_info hk1
    have hbudget1 : k1.order.length ≤ budget := hsettled.same.order.length_eq ▸ hbudget
    rw [fuseRounds, bind_run_ok (ask_run_ok (LoopTable.info_eq_ok.2 hinfo)), bind_run_ok hup,
      bind_run_ok (ask_run_ok (LoopTable.info_eq_ok.2 hinfo1))]
    split
    · next hagain =>
        obtain ⟨changed, k', hrun, hrest⟩ := ih hk1 hspan1 hbudget1
          (Nat.lt_of_lt_of_le (hless (Bool.and_eq_true_iff.1 hagain).1) (Nat.le_of_lt_succ hrounds)) _
        exact ⟨changed, k', hrun, hsettled.trans hrest⟩
    · obtain ⟨down, k2, hdown, hlooked⟩ := fuseConsumers_ok hk1 hspan1 hlevel hbudget1 hbounds1 fun _ hp => hp
      rw [bind_run_ok hdown]
      rcases hlooked with ⟨rfl, rfl⟩ | ⟨span2, rfl, hfused⟩
      · exact ⟨_, k2, rfl, hsettled⟩
      · obtain ⟨pre2, run2, post2, hk2, hspan2⟩ := hfused.covers
        obtain ⟨changed, k', hrun, hrest⟩ := ih hk2 hspan2 (hfused.same.order.length_eq ▸ hbudget1)
          (Nat.lt_of_lt_of_le hfused.fewer (hsettled.fewer.trans (Nat.le_of_lt_succ hrounds))) true
        exact ⟨changed, k', hrun, hsettled.trans (hfused.settled.trans hrest)⟩

theorem fuseAround_ok (hk : k.Fusible depth xs) (hx : x ∈ xs) (hid : x.loopIds[level]? = some id)
    (hreal : id.isSentinel = false) (hlevel : level < depth) (hbudget : k.order.length ≤ budget)
    (hrounds : k.loops.size < budget) :
    ∃ changed k', fuseAround budget id level depth k = .ok changed k' ∧ Settled depth id k k' := by
  obtain ⟨pre, run, post, rfl, hrun⟩ := hk.scheduled.exists_run hk.nested hx hid hreal
  obtain ⟨info, hinfo, hinfoBounds⟩ := hk.exists_info hx hid hreal
  obtain ⟨start, hstart, hbounds⟩ := loopBounds_ok hk.lists hrun hinfo hinfoBounds
  have hspan : Span.Covers ⟨start.id, post.head?.map Expr.id⟩ level id pre run post :=
    { hrun with start := by rw [hstart]; rfl, stop := rfl }
  unfold fuseAround
  rw [bind_run_ok (ask_run_ok (LoopTable.info_eq_ok.2 hinfo)), bind_run_ok (ask_run_ok hbounds)]
  exact fuseRounds_ok hk hspan hlevel hbudget hrounds false

/-! ## The scan -/

/-- Fusing around the loops of one expression leaves as much behind it as there was. -/
theorem fuseLevels_ok {levels : List Nat} (hk : k.Fusible depth xs) (he : e ∈ k.order)
    (hlevels : ∀ level ∈ levels, level < depth) (hbudget : k.order.length ≤ budget) (hrounds : k.loops.size < budget)
    (modified : Bool) :
    ∃ changed k', (levels.foldlM (fun modified (level : Nat) => do
        let id ← Edit.ask fun k => fetch (k.expr e).loopIds level
        if id.isSentinel then return modified
        let changed ← fuseAround budget id level depth
        return modified || changed) modified : Edit Bool) k = .ok changed k' ∧ Reached depth k k' ∧
      (Kernel.behind e k'.order).length = (Kernel.behind e k.order).length := by
  induction levels generalizing k xs modified with
  | nil => exact ⟨modified, k, rfl, .refl hk, rfl⟩
  | cons level levels ih =>
    have hstep : ∃ changed k1, (do
        let id ← Edit.ask fun k => fetch (k.expr e).loopIds level
        if id.isSentinel then return modified
        let changed ← fuseAround budget id level depth
        return modified || changed : Edit Bool) k = .ok changed k1 ∧ Reached depth k k1 ∧
        (Kernel.behind e k1.order).length = (Kernel.behind e k.order).length := by
      obtain ⟨x, hx, rfl⟩ := hk.lists.mem_order.1 he
      obtain ⟨id, hid, hat⟩ := fetch_level hk.scheduled (hlevels level mem_cons_self) hx
      have hread := hk.lists.read x hx
      rw [bind_run_ok (ask_run_ok (show fetch (k.expr x.id).loopIds (level : Int) = .ok id by rw [hread]; exact hid))]
      split
      · exact ⟨modified, k, rfl, .refl hk, rfl⟩
      · next hskip =>
          obtain ⟨changed, k1, hrun, hsettled⟩ := fuseAround_ok hk hx hat (by simpa using hskip)
            (hlevels level mem_cons_self) hbudget hrounds
          rw [bind_run_ok hrun]
          refine ⟨_, k1, rfl, hsettled.toReached, (hsettled.ahead x.id he ?_).2⟩
          rw [hread]
          exact inLoop_iff.2 ⟨level, hat⟩
    obtain ⟨changed1, k1, hrun1, hreached1, hbehind1⟩ := hstep
    obtain ⟨xs1, hk1⟩ := hreached1.fusible
    obtain ⟨changed, k', hrun, hreached, hbehind⟩ := ih hk1 (hreached1.same.order.mem_iff.2 he)
      (fun level hlevel => hlevels level (mem_cons_of_mem _ hlevel)) (hreached1.same.order.length_eq ▸ hbudget)
      (Nat.lt_of_le_of_lt hreached1.fewer hrounds) changed1
    refine ⟨changed, k', ?_, hreached1.trans hreached, hbehind.trans hbehind1⟩
    rw [foldlM_cons, bind_run_ok hrun1]
    exact hrun

theorem fuseAt_ok (hk : k.Fusible depth xs) (he : e ∈ k.order)
    (hprevious : ∀ ids ∈ previous, ids.length = depth)
    (hbudget : k.order.length ≤ budget) (hrounds : k.loops.size < budget) :
    ∃ changed k', fuseAt budget e previous k = .ok changed k' ∧ Reached depth k k' ∧
      (Kernel.behind e k'.order).length = (Kernel.behind e k.order).length := by
  obtain ⟨x, hx, rfl⟩ := hk.lists.mem_order.1 he
  have hlength : (k.expr x.id).loopIds.length = depth := by rw [hk.lists.read x hx, hk.scheduled.levels x hx]
  obtain ⟨first, hfirst⟩ : ∃ first, firstChange (k.expr x.id) previous = .ok first := by
    cases previous with
    | none => exact ⟨0, rfl⟩
    | some ids => exact ⟨_, if_neg (not_not.2 (hlength.trans (hprevious ids rfl).symm))⟩
  unfold fuseAt
  rw [get_bind_run, bind_run_ok (ask_run_ok hfirst), hlength]
  refine fuseLevels_ok hk he (fun level hlevel => ?_) hbudget hrounds false
  obtain ⟨i, hi, rfl⟩ := mem_range'.1 hlevel
  omega

/-- Less lies behind the next expression than behind this one. -/
theorem behind_next? (hl : k.Lists xs) (he : e ∈ k.order) :
    ∀ i ∈ k.next? e, i ∈ k.order ∧ (Kernel.behind i k.order).length < (Kernel.behind e k.order).length := by
  intro i hi
  obtain ⟨x, hx, rfl⟩ := hl.mem_order.1 he
  obtain ⟨a, b, rfl⟩ := append_of_mem hx
  rw [hl.next?] at hi
  obtain ⟨y, hy, rfl⟩ := Option.map_eq_some_iff.1 hi
  obtain ⟨b, rfl⟩ := head?_eq_some_iff.1 hy
  have hnext : k.Lists ((a ++ [x]) ++ y :: b) := by simpa using hl
  rw [hl.behind, hnext.behind]
  exact ⟨hl.mem_order.2 ⟨y, by simp, rfl⟩, by simp⟩

/-- The scan goes forward only. -/
theorem scan_ok {steps : Nat} {e : Option ExprId} (hk : k.Fusible depth xs)
    (he : ∀ i ∈ e, i ∈ k.order ∧ (Kernel.behind i k.order).length < steps)
    (hprevious : ∀ ids ∈ previous, ids.length = depth) (hbudget : k.order.length ≤ budget)
    (hrounds : k.loops.size < budget) (modified : Bool) :
    ∃ changed k', scan budget steps e previous modified k = .ok changed k' ∧ Reached depth k k' := by
  induction steps generalizing k xs e previous modified with
  | zero =>
    cases e with
    | none => exact ⟨modified, k, rfl, .refl hk⟩
    | some e => exact absurd (he e rfl).2 (Nat.not_lt_zero _)
  | succ steps ih =>
    cases e with
    | none => exact ⟨modified, k, rfl, .refl hk⟩
    | some e =>
      obtain ⟨hmem, hlength⟩ := he e rfl
      rw [scan, get_bind_run]
      split
      · rw [get_bind_run]
        refine ih hk (fun i hi => ?_) hprevious hbudget hrounds modified
        obtain ⟨hi, hless⟩ := behind_next? hk.lists hmem i hi
        exact ⟨hi, by omega⟩
      · obtain ⟨changed1, k1, hrun1, hreached1, hbehind1⟩ := fuseAt_ok hk hmem hprevious hbudget hrounds
        obtain ⟨xs1, hk1⟩ := hreached1.fusible
        have hmem1 := hreached1.same.order.mem_iff.2 hmem
        have hnext : ∀ i ∈ k1.next? e, i ∈ k1.order ∧ (Kernel.behind i k1.order).length < steps := by
          intro i hi
          obtain ⟨hi, hless⟩ := behind_next? hk1.lists hmem1 i hi
          exact ⟨hi, by omega⟩
        have hlevels : ∀ ids ∈ (k1.expr e).levels?, ids.length = depth := by
          intro ids hids
          obtain ⟨x, hx, rfl⟩ := hk1.lists.mem_order.1 hmem1
          rw [Expr.levels?, hk1.lists.read x hx, Option.mem_ite_none_right] at hids
          rw [← Option.some.inj hids.2, hk1.scheduled.levels x hx]
        obtain ⟨changed, k', hrun, hreached⟩ := ih hk1 hnext hlevels (hreached1.same.order.length_eq ▸ hbudget)
          (Nat.lt_of_le_of_lt hreached1.fewer hrounds) (modified || changed1)
        rw [bind_run_ok hrun1, get_bind_run]
        exact ⟨changed, k', hrun, hreached1.trans hreached⟩

/-- On a kernel that lists a schedule the pass comes to an end, at a schedule of the same
    expressions. -/
theorem run_ok (hk : k.Fusible depth xs) : ∃ changed k', Fusion.run k = .ok changed k' ∧
    Reached depth k k' := by
  have henough : k.order.length + 2 ≤ enough k ∧ k.loops.size + 2 ≤ enough k :=
    ⟨Nat.le_mul_of_pos_right _ (by omega), Nat.le_mul_of_pos_left _ (by omega)⟩
  unfold Fusion.run fuse
  rw [get_bind_run, get_bind_run]
  refine scan_ok hk (fun i hi => ?_) (by simp) (by omega) (by omega) false
  have hmem : i ∈ k.order := mem_of_head? hi
  obtain ⟨x, hx, rfl⟩ := hk.lists.mem_order.1 hmem
  obtain ⟨a, b, rfl⟩ := append_of_mem hx
  refine ⟨hmem, ?_⟩
  have hlength := congrArg List.length hk.lists.order
  simp only [length_map, length_append, length_cons] at hlength
  rw [hk.lists.behind, length_map]
  omega

end Fusion

/-! ## What the pass leaves -/

section OneLevel

variable {loops : LoopTable}

/-- Loops of one level are nested. -/
theorem Scheduled.nested_of_one (h : Scheduled 1 loops xs) : LoopsAgree xs := by
  intro x hx y hy i hi j hj _ _ _ _
  rw [h.levels x hx] at hi
  rw [h.levels y hy] at hj
  obtain rfl := Nat.lt_one_iff.1 hi
  obtain rfl := Nat.lt_one_iff.1 hj
  exact ⟨rfl, rfl⟩

/-- Nothing lies around loops of one level. -/
theorem Scheduled.uncrossed_of_one (h : Scheduled 1 loops xs) : Uncrossed loops xs := by
  intro x hx y _ _ i hi _ _ _ _ _ _ _ _ _
  rw [h.levels x hx] at hi
  obtain rfl := Nat.lt_one_iff.1 hi
  rfl

end OneLevel

/-- Fusing the loops of a schedule with one level of loops comes to an end without a failure. It
    leaves the same expressions in some order, with nothing changed but the loops they are in, and a
    schedule again: data is made before it is used, loops stay together, and the table knows the
    boundary of each loop that is left. -/
theorem Fusion.run_scheduled {k : Kernel} (hlists : k.Lists k.sequence)
    (hscheduled : Scheduled 1 k.loops k.sequence) :
    ∃ changed k', Fusion.run k = .ok changed k' ∧ Rearranged k k' ∧ k'.Lists k'.sequence ∧
      Scheduled 1 k'.loops k'.sequence := by
  have hk : k.Fusible 1 k.sequence :=
    ⟨by decide, hlists, hscheduled, hscheduled.nested_of_one, hscheduled.uncrossed_of_one⟩
  obtain ⟨changed, k', hrun, ⟨xs, hk'⟩, hsame, -⟩ := Fusion.run_ok hk
  obtain rfl := hk'.lists.sequence
  exact ⟨changed, k', hrun, hsame, hk'.lists, hk'.scheduled⟩

/-- A kernel in which loops are taken in across others. -/
theorem Fusion.run_scheduled_staggered :
    Scheduled 1 staggered.kernel.loops staggered.kernel.sequence ∧
      ∃ changed k', Fusion.run staggered.kernel = .ok changed k' ∧ Rearranged staggered.kernel k' ∧
        k'.Lists k'.sequence ∧ Scheduled 1 k'.loops k'.sequence :=
  ⟨staggered_scheduled, Fusion.run_scheduled staggered_built.plain.lists staggered_scheduled⟩

/-- The loops of a schedule nest, as the passes behind fusion need it, if its expressions agree on
    them. -/
theorem Scheduled.wellNested {k : Kernel} {depth : Nat} (h : Scheduled depth k.loops k.sequence)
    (hagree : LoopsAgree k.sequence) : k.WellNested where
  level x hx y hy id outer inner outer' inner' hid hlevels hlevels' := by
    have hi : x.loopIds[outer.length]? = some id := by simp [hlevels]
    have hj : y.loopIds[outer'.length]? = some id := by simp [hlevels']
    obtain ⟨hlength, htake⟩ := hagree.agree hx hy hi hj hid.1
    rw [hlevels, hlevels', take_left, take_left] at htake
    exact ⟨hlength.symm, congrArg LoopId.loops htake.symm⟩
  together id hid y hy := by
    have hmem : y ∈ k.sequence := (dropWhile_sublist _).subset ((dropWhile_sublist _).subset hy)
    by_contra hin
    have hloop : id ∈ LoopId.loops y.loopIds :=
      LoopId.mem_loops.2 ⟨contains_iff_mem.1 (Bool.not_eq_false _ ▸ hin), hid.1⟩
    exact hin (h.together y hmem id hloop y hy)
  boundary x _ id _ info hinfo p hp := by
    have hbounds := h.bounds (id, info) (LoopTable.mem_of_get? hinfo)
    rcases mem_append.1 hp with hp | hp
    · obtain ⟨-, y, hy, hin, hid, -⟩ := mem_entryPorts.1 (hbounds.entries.mem_iff.1 hp)
      exact ⟨y, hy, hid, hin⟩
    · obtain ⟨-, y, hy, hin, hid, -⟩ := mem_outputPorts.1 (hbounds.own p hp)
      exact ⟨y, hy, hid, hin⟩

/-- Fusing the loops of a schedule keeps them properly nested at every depth, as long as data that
    goes from one loop to another with the same increment, at one level, stays within the loops
    around them. -/
theorem Fusion.run_nested {k : Kernel} {depth : Nat} (hdepth : depth ≤ 2 ^ 63)
    (hlists : k.Lists k.sequence)
    (hscheduled : Scheduled depth k.loops k.sequence) (hnested : LoopsAgree k.sequence)
    (huncrossed : Uncrossed k.loops k.sequence) :
    ∃ changed k', Fusion.run k = .ok changed k' ∧ Scheduled depth k'.loops k'.sequence ∧
      LoopsAgree k'.sequence ∧ Uncrossed k'.loops k'.sequence ∧ k'.WellNested := by
  obtain ⟨changed, k', hrun, ⟨xs, hk'⟩, -, -⟩ := Fusion.run_ok ⟨hdepth, hlists, hscheduled, hnested, huncrossed⟩
  obtain rfl := hk'.lists.sequence
  exact ⟨changed, k', hrun, hk'.scheduled, hk'.nested, hk'.uncrossed, hk'.scheduled.wellNested hk'.nested⟩

/-- A matrix of two rows, under a name. -/
def Fusion.matrix (id : TensorId) : Tensor := { TensorType.planar .float32 [2, 16] with id }

/-- A matrix is copied twice, the first time row by row and the second time two rows at a time. -/
def Fusion.blocks : Builder :=
  (Builder.start {} .float32 2 8).after
    [.parameter [2, 16],
      .load (matrix 0), .store (matrix 1), .loop (some 0) 1 16 8, .loop (some 0) 0 2 1,
      .load (matrix 2), .store (matrix 3), .loop (some 2) 1 16 8, .loop (some 2) 0 2 2,
      .result (matrix 4)]

/-- Where the outer loops do not fit, the inner ones are joined all the same, and one loop then lies
    in two. -/
theorem Fusion.run_crossed_blocks :
    ∃ b : Builder, Built b ∧ Scheduled 2 b.kernel.loops b.kernel.sequence ∧ LoopsAgree b.kernel.sequence ∧
      ∃ k', Fusion.run b.kernel = .ok true k' ∧ ¬LoopsAgree k'.sequence := by
  have hscheduled : Scheduled 2 blocks.kernel.loops blocks.kernel.sequence := by decide +kernel
  have hnested : LoopsAgree blocks.kernel.sequence := by decide +kernel
  refine ⟨blocks, (Built.start _ _ _ _).after (by decide +kernel), hscheduled, hnested, ?_⟩
  have hcrossed : (match Fusion.run blocks.kernel with
      | .ok true k' => decide (¬LoopsAgree k'.sequence)
      | _ => false) = true := by decide +kernel
  split at hcrossed
  · next k' hrun => exact ⟨k', hrun, of_decide_eq_true hcrossed⟩
  · cases hcrossed

end KernelLoops
