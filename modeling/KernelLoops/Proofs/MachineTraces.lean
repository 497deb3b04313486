import KernelLoops.Catalogue
import KernelLoops.Proofs.Brackets
import KernelLoops.Proofs.Pictures

set_option autoImplicit false

/-! # Machines and simulated runs

A simulated run knows positions only. A machine that runs the same kernel alone opens its windows
where the simulated run makes its accesses, moved by where each tensor stands at first, as long as
all of them lie within the memory of their tensors; it stops out of bounds only at an access that
does not. The two runs go in lockstep: after each expression and each step of a loop the machine
agrees with the trace (`Machine.Agrees`), or it has stopped. -/

namespace KernelLoops

open List

variable {k : Kernel} {x : Expr} {count : Amount} {b : Binding} {i : Int} {offsets : List Amount}
  {inputs outputs : Nat}
  {t : Tensor} {s s' : Trace} {α : Type}

/-- Did a window not lie within its memory? -/
def Failure.isOutOfBounds (f : Failure) : Bool :=
  match f.cause with
  | .violation (.outOfBounds _ _ _) | .trap .window => true
  | _ => false

/-- A kernel that can be simulated: its markers are balanced and find each other, its loops are
    static with a positive increment and a step and an offset for each operand, and its memory
    accesses have the operand they move and do not count down. A tensor is the same wherever it
    occurs. -/
structure Kernel.Simulable (k : Kernel) : Prop where
  numbered : ∀ i ∈ k.order, (k.expr i).id = i
  distinct : k.order.Nodup
  balanced : k.Balanced [] k.sequence
  coherent : ∀ t ∈ k.tensors, ∀ u ∈ k.tensors, t.id = u.id → t = u
  closes : ∀ x ∈ k.sequence, x.kind = .loopEnd → ∃ l, x.Closes l ∧ 0 < l.increment
  playable : ∀ x ∈ k.sequence, x.kind.isMarker = false → x.Playable
  counts : ∀ x ∈ k.sequence, x.kind.isMemoryAccess = true → 0 ≤ x.count
  single : ∀ x ∈ k.sequence, x.kind = .broadcastLoad → x.count = 1
  blocks : ∀ x ∈ k.sequence, x.kind ≠ .brgemm

instance (k : Kernel) : Decidable k.Simulable :=
  decidable_of_iff
    ((∀ i ∈ k.order, (k.expr i).id = i) ∧ k.order.Nodup ∧ k.Balanced [] k.sequence ∧
      (∀ t ∈ k.tensors, ∀ u ∈ k.tensors, t.id = u.id → t = u) ∧
      (∀ x ∈ k.sequence, x.kind = .loopEnd → ∃ l ∈ x.loop, x.Closes l ∧ 0 < l.increment) ∧
      (∀ x ∈ k.sequence, x.kind.isMarker = false → x.Playable) ∧
      (∀ x ∈ k.sequence, x.kind.isMemoryAccess = true → 0 ≤ x.count) ∧
      (∀ x ∈ k.sequence, x.kind = .broadcastLoad → x.count = 1) ∧ ∀ x ∈ k.sequence, x.kind ≠ .brgemm)
    ⟨fun h => ⟨h.1, h.2.1, h.2.2.1, h.2.2.2.1, fun x hx hkind => (h.2.2.2.2.1 x hx hkind).imp fun _ hl => hl.2,
        h.2.2.2.2.2.1, h.2.2.2.2.2.2.1, h.2.2.2.2.2.2.2.1, h.2.2.2.2.2.2.2.2⟩,
      fun h => ⟨h.numbered, h.distinct, h.balanced, h.coherent,
        fun x hx hkind => (h.closes x hx hkind).imp fun _ hl => ⟨hl.1.params, hl⟩,
        h.playable, h.counts, h.single, h.blocks⟩⟩

namespace Machine

/-- Where a tensor stands. A tensor without memory will start at its first element. -/
def positionOf (m : Machine α) (T : TensorId) : Amount :=
  ((m.bindings.lookup T).map Binding.position).getD 0

/-- The elements in the memory of a tensor, or in the memory it will be given. -/
def extent (m : Machine α) (t : Tensor) : Amount :=
  match m.bindings.lookup t.id with
  | some b => Int64.ofNat (m.blockSize b.block)
  | none => t.numElements

/-- The access, made from where the tensor stands, does not lie within the memory of the tensor. -/
def Misses (m : Machine α) (t : Tensor) (a : Access) : Prop :=
  (m.positionOf t.id + a.offset).toInt < 0 ∨
    (m.extent t).toInt < (m.positionOf t.id + a.offset).toInt + a.count.toInt

instance (m : Machine α) (t : Tensor) (a : Access) : Decidable (m.Misses t a) :=
  inferInstanceAs (Decidable (_ ∨ _))

/-- The access, counted from the start of the tensor's memory. -/
def place (m : Machine α) (a : Access) : Access :=
  { a with offset := m.positionOf a.tensor + a.offset }

/-- The windows that were opened on a tensor. -/
def windowsOf (m : Machine α) (T : TensorId) : List Access := m.windows.toList.filter (·.tensor = T)

/-- A machine that started as `m0` agrees with a simulated run: it opened a window for each access,
    every access lies in the memory of its tensor, and each tensor has moved as far as the simulated
    run says. -/
structure Agrees (m : Machine α) (k : Kernel) (m0 : Machine α) (s : Trace) : Prop where
  windows : m.windows.toList = s.accesses.toList.map m0.place
  fits : ∀ t ∈ k.tensors, ∀ a ∈ s.accesses.toList, a.tensor = t.id → ¬m0.Misses t a
  inside : ∀ T b, m.bindings.lookup T = some b → b.block < m.blocks.size
  position : ∀ T b, m.bindings.lookup T = some b → b.position = m0.positionOf T + s.position T
  room : ∀ t ∈ k.tensors, ∀ b, m.bindings.lookup t.id = some b → Int64.ofNat (m.blockSize b.block) = m0.extent t
  free : ∀ T, m.bindings.lookup T = none → m0.bindings.lookup T = none ∧ s.positions.lookup T = none

end Machine

/-- Some access of the simulated run does not lie within the memory of its tensor. -/
def Trace.Strays {α : Type} (k : Kernel) (m0 : Machine α) (s : Trace) : Prop :=
  ∃ t ∈ k.tensors, ∃ a ∈ s.accesses.toList, a.tensor = t.id ∧ m0.Misses t a

/-! ## Questions that do not fail out of bounds -/

/-- The question has an answer, or none for another reason than memory that ends. -/
def InBounds {β : Type} (question : Except Failure β) : Prop :=
  ∀ f, question = .error f → f.isOutOfBounds = false

namespace InBounds

variable {β γ : Type}

theorem ok (b : β) : InBounds (.ok b) := by
  intro f h
  cases h

theorem bind {x : Except Failure β} {g : β → Except Failure γ} (hx : InBounds x)
    (hg : ∀ b, InBounds (g b)) :
    InBounds (x >>= g) := by
  intro f h
  cases x with
  | ok b => exact hg b f h
  | error f' =>
    cases h
    exact hx _ rfl

theorem fetch (xs : List β) (i : Int) : InBounds (KernelLoops.fetch xs i) := by
  intro f h
  unfold KernelLoops.fetch at h
  split at h
  · split at h <;> cases h
    rfl
  · cases h
    rfl

/-- One check. -/
theorem ite {c : Prop} [Decidable c] {f : Failure} (hf : f.isOutOfBounds = false) (b : β) :
    InBounds (if c then .error f else .ok b) := by
  split
  · rintro _ ⟨⟩
    exact hf
  · exact ok b

theorem storage (size : Nat) (n : Amount) : InBounds (KernelLoops.storage size n) := ite rfl _

theorem quotient (a b : Amount) : InBounds (KernelLoops.quotient a b) := ite rfl _

theorem padLanes (count : Amount) (v : β) (r : Array β) : InBounds (Machine.padLanes count v r) :=
  ite rfl _

theorem firstLanes (width : Nat) (r : Array β) : InBounds (Arithmetic.firstLanes width r) :=
  ite rfl _

theorem elementwise (A : Arithmetic β) (op : String) (args : List (Array β)) (width : Amount) :
    InBounds (A.elementwise op args width) := by
  refine (InBounds.storage 4 width).bind fun n => ?_
  split
  · exact (firstLanes n _).bind fun _ => ok _
  · exact (firstLanes n _).bind fun _ => (firstLanes n _).bind fun _ => ok _
  · intro f h
    cases h
    rfl

end InBounds

/-! ## How a machine's step ends -/

/-- The step ends in a state with `Q`, or it fails; out of bounds only if `excuse` holds. -/
def Ends {σ β : Type} (r : EStateM.Result Failure σ β) (Q : β → σ → Prop) (excuse : Prop) : Prop :=
  match r with
  | .ok b s => Q b s
  | .error f _ => f.isOutOfBounds = true → excuse

namespace Ends

variable {σ β γ : Type} {excuse : Prop}

theorem bind {x : EStateM Failure σ β} {g : β → EStateM Failure σ γ} {s : σ} {Q : β → σ → Prop}
    {Q' : γ → σ → Prop}
    (hx : Ends (x s) Q excuse) (hg : ∀ b s', Q b s' → Ends (g b s') Q' excuse) : Ends ((x >>= g) s) Q' excuse := by
  cases hrun : x s with
  | ok b s' =>
    rw [hrun] at hx
    rw [bind_run_ok hrun]
    exact hg b s' hx
  | error f s' =>
    rw [hrun] at hx
    rw [bind_run_error hrun]
    exact hx

theorem imp {r : EStateM.Result Failure σ β} {Q Q' : β → σ → Prop} {excuse' : Prop}
    (h : Ends r Q excuse)
    (hQ : ∀ b s, Q b s → Q' b s) (hexcuse : excuse → excuse') : Ends r Q' excuse' := by
  cases r with
  | ok b s => exact hQ b s h
  | error f s => exact fun hf => hexcuse (h hf)

/-- A question leaves the machine alone. -/
theorem lift {question : Except Failure β} (hquestion : InBounds question) {m : Machine α}
    {g : β → Machine.Step α γ} {Q : γ → Machine α → Prop} (hg : ∀ b, question = .ok b → Ends (g b m) Q excuse) :
    Ends ((Machine.lift question >>= g) m) Q excuse := by
  cases question with
  | ok b => exact hg b rfl
  | error f =>
    intro hf
    rw [hquestion f rfl] at hf
    cases hf

end Ends

/-! ## Finding tensors -/

/-- The machine with a block for a tensor that had none. -/
def Machine.allocated (m : Machine α) (t : TensorId) (n : Nat) : Machine α :=
  { m with
    blocks := m.blocks.push (.fresh n)
    bindings := put t { block := m.blocks.size, position := 0, temporary := true } m.bindings }

namespace Machine.Agrees

variable {m0 m : Machine α} {excuse : Prop}

/-- Registers and the contents of blocks are not seen. -/
theorem of_blocks (h : m.Agrees k m0 s) {m' : Machine α} (hwindows : m'.windows = m.windows)
    (hbindings : m'.bindings = m.bindings) (hsize : m'.blocks.size = m.blocks.size)
    (hblocks : ∀ b, m'.blockSize b = m.blockSize b) : m'.Agrees k m0 s where
  windows := hwindows ▸ h.windows
  fits := h.fits
  inside T b hb := hsize ▸ h.inside T b (hbindings ▸ hb)
  position T b hb := h.position T b (hbindings ▸ hb)
  room t ht b hb := by
    rw [hblocks]
    exact h.room t ht b (hbindings ▸ hb)
  free T hT := h.free T (hbindings ▸ hT)

/-- One tensor is bound anew, and the others are left alone. -/
theorem rebound (h : m.Agrees k m0 s) {m' : Machine α} {T : TensorId}
    (hwindows : m'.windows = m.windows)
    (haccesses : s'.accesses = s.accesses) (hbindings : m'.bindings = put T b m.bindings)
    (hsize : m.blocks.size ≤ m'.blocks.size) (hblocks : ∀ c < m.blocks.size, m'.blockSize c = m.blockSize c)
    (hinside : b.block < m'.blocks.size) (hposition : b.position = m0.positionOf T + s'.position T)
    (hothers : ∀ U ≠ T, s'.positions.lookup U = s.positions.lookup U)
    (hroom : ∀ t ∈ k.tensors, t.id = T → Int64.ofNat (m'.blockSize b.block) = m0.extent t) : m'.Agrees k m0 s' := by
  have hself : m'.bindings.lookup T = some b := hbindings ▸ lookup_put_self _ _ _
  have hlookup : ∀ U ≠ T, m'.bindings.lookup U = m.bindings.lookup U := fun U hU => hbindings ▸ lookup_put_of_ne _ _ hU
  have hcases : ∀ U c, m'.bindings.lookup U = some c → U = T ∧ c = b ∨ U ≠ T ∧ m.bindings.lookup U = some c := by
    intro U c hc
    by_cases hU : U = T
    · subst hU
      exact .inl ⟨rfl, Option.some.inj (hc.symm.trans hself)⟩
    · exact .inr ⟨hU, hlookup U hU ▸ hc⟩
  constructor
  case windows => rw [hwindows, haccesses, h.windows]
  case fits => exact haccesses ▸ h.fits
  case inside =>
    intro U c hc
    rcases hcases U c hc with ⟨-, rfl⟩ | ⟨-, hc⟩
    · exact hinside
    · exact Nat.lt_of_lt_of_le (h.inside U c hc) hsize
  case position =>
    intro U c hc
    rcases hcases U c hc with ⟨rfl, rfl⟩ | ⟨hU, hc⟩
    · exact hposition
    · rw [h.position U c hc, Trace.position, Trace.position, hothers U hU]
  case room =>
    intro t ht c hc
    rcases hcases t.id c hc with ⟨hT, rfl⟩ | ⟨-, hc⟩
    · exact hroom t ht hT
    · rw [hblocks _ (h.inside _ c hc), h.room t ht c hc]
  case free =>
    intro U hnone
    have hU : U ≠ T := by
      rintro rfl
      cases hself.symm.trans hnone
    obtain ⟨hnone0, hstay⟩ := h.free U (hlookup U hU ▸ hnone)
    exact ⟨hnone0, (hothers U hU).trans hstay⟩

/-- A tensor that has no memory gets as much as it asks for. -/
theorem allocated (h : m.Agrees k m0 s) (hk : k.Simulable) (ht : t ∈ k.tensors)
    (hnone : m.bindings.lookup t.id = none)
    {n : Nat} (hn : Int64.ofNat n = t.numElements) : (m.allocated t.id n).Agrees k m0 s := by
  obtain ⟨hnone0, hstay⟩ := h.free t.id hnone
  have hsizes : (m.allocated t.id n).blocks.size = m.blocks.size + 1 := Array.size_push ..
  have hblocks : ∀ c, (m.allocated t.id n).blockSize c = if c = m.blocks.size then n else m.blockSize c := by
    intro c
    simp only [blockSize, Machine.allocated, Array.getD_eq_getD_getElem?, Array.getElem?_push]
    split <;> rfl
  refine h.rebound rfl rfl rfl (by omega) (fun c hc => ?_) (by simp [hsizes]) ?_ (fun _ _ => rfl) fun u hu hT => ?_
  · rw [hblocks, if_neg (Nat.ne_of_lt hc)]
  · simp [positionOf, Trace.position, hnone0, hstay]
  · obtain rfl := hk.coherent u hu t ht hT
    rw [hblocks, if_pos rfl, hn, extent, hnone0]

/-- Storage is given for as many items as were asked for. -/
theorem ofNat_of_storage_ok {size n : Nat} {a : Amount} (h : storage size a = .ok n) :
    Int64.ofNat n = a := by
  unfold storage at h
  split at h
  · cases h
  · next hroom =>
    cases h
    rw [Bool.or_eq_true, not_or, decide_eq_true_eq] at hroom
    exact Amount.ofNat_trips (Int64.not_lt.1 hroom.1)

variable (h : m.Agrees k m0 s)

include h

/-- A tensor is found, or it gets its memory. -/
theorem locate (hk : k.Simulable) (ht : t ∈ k.tensors) :
    Ends (Machine.locate t m) (fun b m' => m'.Agrees k m0 s ∧ m'.bindings.lookup t.id = some b) excuse := by
  unfold Machine.locate
  rw [get_bind_run]
  cases hlook : m.bindings.lookup t.id with
  | some b => exact ⟨h, hlook⟩
  | none =>
    refine Ends.lift (.storage 4 _) fun n hn => ?_
    exact ⟨h.allocated hk ht hlook (ofNat_of_storage_ok hn), lookup_put_self _ _ _⟩

/-- The machine has opened a window for one more access, which lies in the memory of its tensor. -/
theorem push_window (hk : k.Simulable) (ht : t ∈ k.tensors)
    (hfits : ¬m0.Misses t ⟨t.id, s.position t.id, count⟩) :
    ({ m with windows := m.windows.push ⟨t.id, m0.positionOf t.id + s.position t.id, count⟩ } : Machine α).Agrees k m0
      { s with accesses := s.accesses.push ⟨t.id, s.position t.id, count⟩ } where
  windows := by
    rw [Array.toList_push, Array.toList_push, map_append, h.windows]
    rfl
  fits u hu a ha hau := by
    rw [Array.toList_push, mem_append, mem_singleton] at ha
    rcases ha with ha | rfl
    · exact h.fits u hu a ha hau
    · obtain rfl := hk.coherent t ht u hu hau
      exact hfits
  inside := h.inside
  position := h.position
  room := h.room
  free := h.free

/-- A window is opened where the simulated run makes its access, unless the access is out of
    bounds. -/
theorem window (hk : k.Simulable) (ht : t ∈ k.tensors) (hcount : 0 ≤ count) :
    Ends (Machine.window t count m)
      (fun _ m' => m'.Agrees k m0 { s with accesses := s.accesses.push ⟨t.id, s.position t.id, count⟩ })
      (m0.Misses t ⟨t.id, s.position t.id, count⟩) := by
  unfold Machine.window
  refine (h.locate hk ht).bind ?_
  rintro b m' ⟨h', hb⟩
  rw [get_bind_run]
  have hposition := h'.position t.id b hb
  have hroom := h'.room t ht b hb
  have hmisses : m0.Misses t ⟨t.id, s.position t.id, count⟩ ↔ b.position.toInt < 0 ∨
      (Int64.ofNat (m'.blockSize b.block)).toInt < b.position.toInt + count.toInt := by
    rw [Misses, hposition, hroom]
  have hcount' : 0 ≤ count.toInt := Amount.le_iff.1 hcount
  have hsize := Amount.toInt_upper (Int64.ofNat (m'.blockSize b.block))
  by_cases hbounds : b.position < 0 ∨ b.position + count > Int64.ofNat (m'.blockSize b.block)
  · rw [if_pos (by simpa using hbounds)]
    intro _
    refine hmisses.2 ?_
    by_cases hneg : b.position.toInt < 0
    · exact .inl hneg
    · have hover := Amount.lt_iff.1 (hbounds.resolve_left fun hlt => hneg (Amount.lt_iff.1 hlt))
      have hsum := Amount.toInt_add_of_nonneg (show 0 ≤ b.position.toInt by omega) hcount'
      exact .inr (by omega)
  · rw [if_neg (by simpa using hbounds)]
    rw [not_or, Int64.not_lt, gt_iff_lt, Int64.not_lt, Amount.le_iff, Amount.le_iff, Int64.toInt_zero] at hbounds
    have hsum := Amount.toInt_add_of_nonneg hbounds.1 hcount'
    by_cases hwraps : b.position + count < b.position
    · rw [if_pos hwraps]
      intro _
      have hlt := Amount.lt_iff.1 hwraps
      exact hmisses.2 (.inr (by omega))
    · rw [if_neg hwraps]
      have hle := Amount.le_iff.1 (Int64.not_lt.1 hwraps)
      have hfits : ¬m0.Misses t ⟨t.id, s.position t.id, count⟩ := by
        rw [hmisses]
        omega
      exact hposition ▸ h'.push_window hk ht hfits

theorem read (A : Arithmetic α) (hk : k.Simulable) (ht : t ∈ k.tensors) (hcount : 0 ≤ count) :
    Ends (Machine.read A t count m)
      (fun _ m' => m'.Agrees k m0 { s with accesses := s.accesses.push ⟨t.id, s.position t.id, count⟩ })
      (m0.Misses t ⟨t.id, s.position t.id, count⟩) := by
  unfold Machine.read
  refine (h.window hk ht hcount).bind ?_
  rintro ⟨block, start, stop⟩ m' h'
  exact h'

theorem register (u : Tensor) :
    Ends (Machine.register u m) (fun _ m' => m'.Agrees k m0 s) excuse := by
  unfold Machine.register
  rw [get_bind_run]
  cases m.registers.lookup u.id with
  | some r => exact h
  | none => exact fun hf => absurd hf Bool.false_ne_true

theorem setRegister (x : Expr) (r : Array α) :
    Ends (Machine.setRegister x r m) (fun _ m' => m'.Agrees k m0 s) excuse := by
  unfold Machine.setRegister
  refine Ends.lift (.fetch _ _) fun u _ => ?_
  exact h.of_blocks rfl rfl rfl fun _ => rfl

theorem lanes : Ends (Machine.lanes m) (fun _ m' => m'.Agrees k m0 s) excuse := by
  unfold Machine.lanes
  rw [get_bind_run, ← bind_pure (Machine.lift _)]
  exact Ends.lift (.storage 4 _) fun _ _ => h

theorem mapM_register (us : List Tensor) :
    Ends (us.mapM Machine.register m) (fun _ m' => m'.Agrees k m0 s) excuse := by
  induction us generalizing m with
  | nil => exact h
  | cons u us ih =>
    rw [mapM_cons]
    refine (h.register u).bind fun r m' h' => ?_
    exact (ih h').bind fun rs m'' h'' => h''

/-- Writing into a block does not change its size. -/
theorem write (A : Arithmetic α) (block start stop : Nat) (values : List α) :
    ({ m with blocks := m.blocks.modify block (Block.write A.zero start stop values) } : Machine α).Agrees k m0 s := by
  refine h.of_blocks rfl rfl (Array.size_modify ..) fun b => ?_
  rw [blockSize, blockSize, Array.getD_eq_getD_getElem?, Array.getD_eq_getD_getElem?, Array.getElem?_modify]
  split
  · cases m.blocks[b]? with
    | none => rfl
    | some c => exact Block.size_write ..
  · rfl

end Machine.Agrees

/-! ## Lockstep -/

/-- A simulated step and a step of a machine go together: the simulated one only adds accesses, and
    from a state that agrees with the trace the machine comes to one that agrees with it again,
    unless it fails; out of bounds it fails only where the simulated run has gone astray. -/
structure Lockstep {α : Type} (k : Kernel) (m0 : Machine α) (f : Simulation.Step Unit)
    (g : Machine.Step α Unit) :
    Prop where
  grows : ∀ s s', f s = .ok () s' → ∀ a ∈ s.accesses.toList, a ∈ s'.accesses.toList
  agrees : ∀ s s' m, m.Agrees k m0 s → f s = .ok () s' → Ends (g m) (fun _ m' => m'.Agrees k m0 s') (s'.Strays k m0)

theorem Trace.Strays.mono {m0 : Machine α} (h : s.Strays k m0)
    (hsub : ∀ a ∈ s.accesses.toList, a ∈ s'.accesses.toList) : s'.Strays k m0 := by
  obtain ⟨t, ht, a, ha, hat, hmisses⟩ := h
  exact ⟨t, ht, a, hsub a ha, hat, hmisses⟩

namespace Lockstep

variable {m0 : Machine α} {f f' : Simulation.Step Unit} {g g' : Machine.Step α Unit}

theorem pure : Lockstep k m0 (Pure.pure ()) (Pure.pure ()) where
  grows s s' h a ha := by
    cases h
    exact ha
  agrees s s' m hm h := by
    cases h
    exact hm

theorem seq (h : Lockstep k m0 f g) (h' : Lockstep k m0 f' g') :
    Lockstep k m0 (do f; f') (do g; g') where
  grows s s' hrun a ha := by
    obtain ⟨_, t, hf, hf'⟩ := of_bind_run_ok hrun
    exact h'.grows t s' hf' a (h.grows s t hf a ha)
  agrees s s' m hm hrun := by
    obtain ⟨_, t, hf, hf'⟩ := of_bind_run_ok hrun
    have hfirst := (h.agrees s t m hm hf).imp (fun _ _ hQ => hQ) fun hstrays => hstrays.mono (h'.grows t s' hf')
    exact hfirst.bind fun _ m' hm' => h'.agrees t s' m' hm' hf'

theorem repeatM (h : Lockstep k m0 f g) (n : Nat) :
    Lockstep k m0 (KernelLoops.repeatM n f) (KernelLoops.repeatM n g) := by
  induction n with
  | zero => exact pure
  | succ n ih => exact h.seq ih

/-- A step of a machine that opens no window goes with nothing. -/
theorem quiet (hg : ∀ s m, m.Agrees k m0 s → Ends (g m) (fun _ m' => m'.Agrees k m0 s) False) :
    Lockstep k m0 (Pure.pure ()) g where
  grows s s' h a ha := by
    cases h
    exact ha
  agrees s s' m hm h := by
    cases h
    exact (hg s m hm).imp (fun _ _ hQ => hQ) False.elim

/-- A step of a machine that opens one window goes with one access. -/
theorem access {operand : Except Failure Tensor} (hoperand : ∀ t, operand = .ok t → t ∈ k.tensors)
    (hg : ∀ s m t, m.Agrees k m0 s → operand = .ok t → Ends (g m)
      (fun _ m' => m'.Agrees k m0 { s with accesses := s.accesses.push ⟨t.id, s.position t.id, count⟩ })
      (m0.Misses t ⟨t.id, s.position t.id, count⟩)) :
    Lockstep k m0 (do Simulation.access (← Simulation.lift operand) count) g := by
  cases operand with
  | error fault =>
    constructor
    · intro s s' h
      cases h
    · intro s s' m _ h
      cases h
  | ok t =>
    constructor
    · intro s s' h a ha
      cases h
      simp [ha]
    · intro s s' m hm h
      cases h
      refine (hg s m t hm rfl).imp (fun _ _ hQ => hQ) fun hmisses => ?_
      exact ⟨t, hoperand t rfl, ⟨t.id, s.position t.id, count⟩, by simp, rfl, hmisses⟩

theorem mem_tensors_input (hx : x ∈ k.sequence) (ht : x.input i = .ok t) : t ∈ k.tensors := by
  obtain ⟨n, -, hn⟩ := of_fetch_ok ht
  exact mem_flatMap.2 ⟨x, hx, mem_append_left _ (mem_of_getElem? hn)⟩

theorem mem_tensors_output (hx : x ∈ k.sequence) (ht : x.output i = .ok t) : t ∈ k.tensors := by
  obtain ⟨n, -, hn⟩ := of_fetch_ok ht
  exact mem_flatMap.2 ⟨x, hx, mem_append_right _ (mem_of_getElem? hn)⟩

/-- An expression that opens no loop. -/
theorem runExpr (A : Arithmetic α) (hk : k.Simulable) (hx : x ∈ k.sequence)
    (hmarker : x.kind.isMarker = false) :
    Lockstep k m0 (Simulation.runExpr x) (Machine.runExpr A x) := by
  have hcount := hk.counts x hx
  have hsingle := hk.single x hx
  have hbrgemm := hk.blocks x hx
  unfold Simulation.runExpr Machine.runExpr
  cases hkind : x.kind
  case parameter | result | buffer | constant => exact pure
  case loopBegin | loopEnd =>
    rw [hkind] at hmarker
    cases hmarker
  case brgemm => exact absurd hkind hbrgemm
  case load =>
    rw [hkind] at hcount
    refine access (fun t ht => mem_tensors_input hx ht) fun s m t hm ht => ?_
    refine hm.lanes.bind fun n m1 h1 => ?_
    refine Ends.lift (.fetch _ _) fun u hu => ?_
    obtain rfl := Except.ok.inj (ht.symm.trans hu)
    refine ((h1.read A hk (mem_tensors_input hx ht) (hcount rfl)).bind fun values m3 h3 => ?_)
    exact h3.setRegister x _
  case broadcastLoad =>
    rw [hsingle hkind]
    refine access (fun t ht => mem_tensors_input hx ht) fun s m t hm ht => ?_
    refine Ends.lift (.fetch _ _) fun u hu => ?_
    obtain rfl := Except.ok.inj (ht.symm.trans hu)
    refine (hm.read A hk (mem_tensors_input hx ht) (by decide)).bind fun values m2 h2 => ?_
    exact h2.lanes.bind fun n m3 h3 => h3.setRegister x _
  case scalar =>
    refine quiet fun s m hm => ?_
    exact hm.lanes.bind fun n m1 h1 => h1.setRegister x _
  case fill =>
    refine quiet fun s m hm => ?_
    refine Ends.lift (.fetch _ _) fun u _ => ?_
    refine (hm.register u).bind fun r m2 h2 => ?_
    refine Ends.lift (.padLanes _ _ _) fun r' _ => ?_
    exact h2.setRegister x r'
  case elementwise =>
    refine quiet fun s m hm => ?_
    refine (hm.mapM_register x.inputs).bind fun args m1 h1 => ?_
    rw [get_bind_run]
    refine Ends.lift (.elementwise A _ _ _) fun r _ => ?_
    exact h1.setRegister x r
  case store =>
    rw [hkind] at hcount
    refine access (fun t ht => mem_tensors_output hx ht) fun s m t hm ht => ?_
    refine Ends.lift (.fetch _ _) fun u hu => ?_
    obtain rfl := Except.ok.inj (ht.symm.trans hu)
    refine (hm.window hk (mem_tensors_output hx ht) (hcount rfl)).bind ?_
    rintro ⟨block, start, stop⟩ m2 h2
    refine Ends.lift (.fetch _ _) fun v _ => ?_
    exact (h2.register v).bind fun r m4 h4 => h4.write A block start stop r.toList
  case other code =>
    exact quiet fun s m hm hf => absurd hf Bool.false_ne_true

/-! ## Loops -/

end Lockstep

/-- A tensor that has moved as far as one step of the simulated run. -/
theorem Machine.Agrees.move {m0 m : Machine α} (h : m.Agrees k m0 s) {T : TensorId}
    (hb : m.bindings.lookup T = some b) (step : Amount) :
    (m.bind T { b with position := b.position + step }).Agrees k m0
      { s with positions := put T (s.position T + step) s.positions } := by
  refine h.rebound rfl rfl rfl (Nat.le_refl _) (fun _ _ => rfl) (h.inside T b hb) ?_
    (fun U hU => lookup_put_of_ne _ _ hU) fun t ht hT => h.room t ht b (hT ▸ hb)
  rw [Trace.position, lookup_put_self]
  show b.position + step = m0.positionOf T + (s.position T + step)
  rw [h.position T b hb, Int64.add_assoc]

namespace Lockstep

variable {m0 : Machine α} {f : Simulation.Step Unit} {g : Machine.Step α Unit} {e : Expr}
  {l : LoopParams}

theorem of_lift_ok {β : Type} {question : Except Failure β} {b : β}
    (h : Simulation.lift question s = .ok b s') :
    question = .ok b ∧ s' = s := by
  cases question with
  | ok c =>
    cases h
    exact ⟨rfl, rfl⟩
  | error f => cases h

/-- The step of one operand. -/
theorem operand (hk : k.Simulable) (he : e ∈ k.sequence) {amount : Except Failure Amount}
    (hamount : ∀ step, amount = .ok step → fetch offsets i = .ok step) :
    Lockstep k m0
      (do
        let t ← Simulation.lift (e.input i)
        let step ← Simulation.lift amount
        modify fun trace => { trace with positions := put t.id (trace.position t.id + step) trace.positions })
      (do
        let t ← Machine.lift (e.input i)
        let b ← Machine.locate t
        let step ← Machine.lift (fetch offsets i)
        modify fun m => m.bind t.id { b with position := b.position + step }) := by
  constructor
  · intro s s' hrun a ha
    obtain ⟨t, s1, ht, hrest⟩ := of_bind_run_ok hrun
    obtain ⟨step, s2, hstep, hmove⟩ := of_bind_run_ok hrest
    obtain ⟨-, rfl⟩ := of_lift_ok ht
    obtain ⟨-, rfl⟩ := of_lift_ok hstep
    cases hmove
    exact ha
  · intro s s' m hm hrun
    obtain ⟨t, s1, hinput, hrest⟩ := of_bind_run_ok hrun
    obtain ⟨step, s2, hlift, hmove⟩ := of_bind_run_ok hrest
    obtain ⟨ht, rfl⟩ := of_lift_ok hinput
    obtain ⟨hstep, rfl⟩ := of_lift_ok hlift
    cases hmove
    refine Ends.lift (.fetch _ _) fun u hu => ?_
    obtain rfl := Except.ok.inj (ht.symm.trans hu)
    refine (hm.locate hk (mem_tensors_input he ht)).bind ?_
    rintro b m2 ⟨hm2, hb⟩
    refine Ends.lift (.fetch _ _) fun step' hstep' => ?_
    obtain rfl := Except.ok.inj ((hamount step hstep).symm.trans hstep')
    exact hm2.move hb step

theorem countM {F : Int → Simulation.Step Unit} {G : Int → Machine.Step α Unit}
    (h : ∀ i, Lockstep k m0 (F i) (G i))
    (start : Int) (n : Nat) : Lockstep k m0 (KernelLoops.countM start n F) (KernelLoops.countM start n G) := by
  induction n generalizing start with
  | zero => exact pure
  | succ n ih => exact (h start).seq (ih (start + 1))

theorem advance (hk : k.Simulable) (he : e ∈ k.sequence) {amount : Int → Except Failure Amount}
    (hamount : ∀ i step, amount i = .ok step → fetch offsets i = .ok step) :
    Lockstep k m0 (Simulation.advance e l amount) (Machine.advance e l offsets) :=
  countM (fun i => operand hk he (hamount i)) 0 _

/-- The bodies of a loop, with a step behind each. -/
theorem iterate (hk : k.Simulable) (he : e ∈ k.sequence) (hl : e.Closes l) (hinc : 0 < l.increment)
    (honce : l.once = false) (hbody : Lockstep k m0 f g) :
    Lockstep k m0
      (KernelLoops.repeatM l.bodyCount do
        f
        Simulation.advance e l fun i => (· * l.increment) <$> fetch l.ptrIncrements i)
      (Machine.iterate e l l.workAmount g) := by
  have hsteps : ∀ i step, (· * l.increment) <$> fetch l.ptrIncrements i = .ok step →
      fetch (l.ptrIncrements.map (· * l.increment)) i = .ok step := by
    intro i step h
    cases hfetch : fetch l.ptrIncrements i with
    | error fault =>
      rw [hfetch] at h
      cases h
    | ok p =>
      rw [hfetch] at h
      cases h
      obtain ⟨n, rfl, hn⟩ := of_fetch_ok hfetch
      exact fetch_eq_ok_iff.2 (by rw [getElem?_map, hn]; rfl)
  have hrounds := (hbody.seq (advance (l := l) hk he hsteps)).repeatM l.bodyCount
  refine ⟨hrounds.grows, fun s s' m hm hrun => ?_⟩
  unfold Machine.iterate
  refine Ends.lift (.storage 8 _) fun n hn => ?_
  have hlength : n = l.ptrIncrements.length := by
    unfold storage at hn
    split at hn
    · cases hn
    · cases hn
      exact hl.steps.symm
  rw [if_neg (by omega), hlength, take_length]
  refine Ends.lift (.quotient _ _) fun count hcount => ?_
  have hbodies : count.trips = l.bodyCount := by
    have hne : l.increment ≠ 0 := by
      intro h
      rw [h] at hinc
      exact absurd hinc (by decide)
    rw [quotient, if_neg hne] at hcount
    cases hcount
    rw [LoopParams.bodyCount, honce, if_neg Bool.false_ne_true, if_pos hinc]
  rw [hbodies]
  exact hrounds.agrees s s' m hm hrun

/-- A loop. -/
theorem runLoop (hk : k.Simulable) (he : e ∈ k.sequence) (hl : e.Closes l) (hinc : 0 < l.increment)
    (hbody : Lockstep k m0 f g) : Lockstep k m0 (Simulation.runLoop e f) (Machine.runLoop e g) := by
  have hreset : Lockstep k m0 (Simulation.advance e l (fetch l.finalOffsets)) (Machine.advance e l l.finalOffsets) :=
    advance hk he fun _ _ h => h
  unfold Simulation.runLoop Machine.runLoop
  simp only [Expr.params, hl.params, hl.static, Simulation.lift, Machine.lift, pure_bind, Bool.not_true,
    Bool.false_eq_true, if_false]
  cases honce : l.once with
  | true =>
    simp only [if_true]
    exact hbody.seq hreset
  | false =>
    simp only [Bool.false_eq_true, if_false]
    exact (iterate hk he hl hinc honce hbody).seq hreset

/-- Code whose expressions stand in the kernel. -/
theorem code (A : Arithmetic α) (hk : k.Simulable) {c : Code} (hc : c.Linked k)
    (hsub : ∀ x ∈ c.flatten, x ∈ k.sequence) :
    Lockstep k m0 (c.run { run := Simulation.runExpr, loop := fun _ e body => Simulation.runLoop e body })
      (c.run (Machine.alone A)) := by
  induction c with
  | done => exact pure
  | op x rest ih =>
    have hx := hsub x mem_cons_self
    exact (runExpr A hk hx hc.1).seq (ih hc.2 fun y hy => hsub y (mem_cons_of_mem x hy))
  | loop b e body rest ihbody ihrest =>
    obtain ⟨⟨-, hclose, -⟩, hbody, hrest⟩ := hc
    have he : e ∈ k.sequence := hsub e (by simp [Code.flatten])
    obtain ⟨l, hl, hinc⟩ := hk.closes e he hclose
    refine (runLoop hk he hl hinc (ihbody hbody fun y hy => hsub y ?_)).seq (ihrest hrest fun y hy => hsub y ?_)
    · simp [Code.flatten, hy]
    · simp [Code.flatten, hy]

end Lockstep

/-! ## Setting up -/

namespace Machine

variable {m : Machine α}

/-- What preparing an expression does to a machine, apart from making its registers wider: it binds
    an argument to a block of its own, it binds the tensors of a buffer to the scratch area, or it
    does nothing. -/
theorem of_setupExpr_ok {s s' : Setup α} (hrun : setupExpr inputs outputs s x = .ok s') : ∃ n,
      (∃ t block, 1 ≤ block ∧ block < 1 + inputs + outputs ∧
        bindArgument { s.machine with width := n } t block = .ok s'.machine) ∨
      (∃ T U p, s'.machine = (bind { s.machine with width := n } T ⟨0, p, false⟩).bind U ⟨0, p, false⟩) ∨
      s'.machine = { s.machine with width := n } := by
  unfold setupExpr at hrun
  cases hkind : x.kind <;>
    simp only [hkind, OpKind.isMemoryAccess, OpKind.isMarker, Bool.not_false, Bool.not_true,
      if_true, Bool.false_eq_true,
      if_false] at hrun
  case loopBegin | loopEnd =>
    cases hrun
    exact ⟨s.machine.width, .inr (.inr rfl)⟩
  case parameter =>
    split at hrun
    · cases hrun
    split at hrun
    · cases hrun
    · next hroom =>
      obtain ⟨t, -, hrun⟩ := of_except_bind_ok hrun
      obtain ⟨m, hbind, hrun⟩ := of_except_bind_ok hrun
      cases hrun
      exact ⟨s.machine.width, .inl ⟨t, 1 + s.parameters, by omega, by omega, hbind⟩⟩
  case result =>
    split at hrun
    · cases hrun
    split at hrun
    · cases hrun
    · next hroom =>
      obtain ⟨t, -, hrun⟩ := of_except_bind_ok hrun
      obtain ⟨m, hbind, hrun⟩ := of_except_bind_ok hrun
      cases hrun
      exact ⟨s.machine.width, .inl ⟨t, 1 + inputs + s.results, by omega, by omega, hbind⟩⟩
  case buffer =>
    split at hrun
    · cases hrun
    split at hrun
    · cases hrun
    · obtain ⟨src, -, hrun⟩ := of_except_bind_ok hrun
      obtain ⟨out, -, hrun⟩ := of_except_bind_ok hrun
      cases hrun
      exact ⟨s.machine.width, .inr (.inl ⟨src.id, out.id, x.bufferOffset / 4, rfl⟩)⟩
  all_goals
    split at hrun
    · cases hrun
    · cases hrun
      exact ⟨_, .inr (.inr rfl)⟩

/-- A machine that has opened no window yet, and whose tensors all live in its blocks. -/
structure Rested (m : Machine α) : Prop where
  windows : m.windows = #[]
  inside : ∀ T b, m.bindings.lookup T = some b → b.block < m.blocks.size

theorem Rested.bind (h : m.Rested) (T : TensorId) (hb : b.block < m.blocks.size) :
    (m.bind T b).Rested where
  windows := h.windows
  inside U c hc := by
    have hc' : (put T b m.bindings).lookup U = some c := hc
    by_cases hU : U = T
    · subst hU
      rw [lookup_put_self] at hc'
      exact Option.some.inj hc' ▸ hb
    · rw [lookup_put_of_ne _ _ hU] at hc'
      exact h.inside U c hc'

/-- Preparing an expression opens no window. -/
theorem Rested.setupExpr {s s' : Setup α} (h : s.machine.Rested)
    (hsize : s.machine.blocks.size = 1 + inputs + outputs) (hrun : Machine.setupExpr inputs outputs s x = .ok s') :
    s'.machine.Rested ∧ s'.machine.blocks.size = 1 + inputs + outputs := by
  obtain ⟨n, hstep⟩ := of_setupExpr_ok hrun
  have hwide : Rested { s.machine with width := n } := ⟨h.windows, h.inside⟩
  rcases hstep with ⟨t, block, -, hblock, hbind⟩ | ⟨T, U, p, hbind⟩ | hsame
  · unfold Machine.bindArgument at hbind
    split at hbind
    · cases hbind
    · rw [← Except.ok.inj hbind]
      exact ⟨hwide.bind t.id (hblock.trans_eq hsize.symm), hsize⟩
  · rw [hbind]
    have hscratch : 0 < s.machine.blocks.size := by omega
    exact ⟨(hwide.bind T hscratch).bind U hscratch, hsize⟩
  · rw [hsame]
    exact ⟨hwide, hsize⟩

/-- A machine that was set up has opened no window. -/
theorem rested_of_setup {inputs outputs : List (Array α)} (h : setup k inputs outputs = .ok m) :
    m.Rested := by
  have hfold : ∀ (xs : List Expr) (s s' : Setup α), s.machine.Rested →
      s.machine.blocks.size = 1 + inputs.length + outputs.length →
      xs.foldlM (Machine.setupExpr inputs.length outputs.length) s = .ok s' → s'.machine.Rested := by
    intro xs
    induction xs with
    | nil =>
      intro s s' hs _ hrun
      cases hrun
      exact hs
    | cons x xs ih =>
      intro s s' hs hsize hrun
      rw [foldlM_cons] at hrun
      obtain ⟨s1, hfirst, hrest⟩ := of_except_bind_ok hrun
      obtain ⟨hs1, hsize1⟩ := hs.setupExpr hsize hfirst
      exact ih s1 s' hs1 hsize1 hrest
  unfold setup at h
  obtain ⟨scratch, -, h⟩ := of_except_bind_ok h
  obtain ⟨s, hrun, h⟩ := of_except_bind_ok h
  split at h
  · cases h
  · cases h
    refine hfold k.sequence _ s ⟨rfl, ?_⟩ ?_ hrun
    · intro T b hb
      cases hb
    · simp only [size_toArray, length_cons, length_map, length_append]
      omega

/-- Before a run the machine agrees with the trace in which nothing has happened. -/
theorem Rested.agrees (h : m.Rested) (k : Kernel) : m.Agrees k m {} where
  windows := by
    rw [h.windows]
    rfl
  fits _ _ a ha := by cases ha
  inside := h.inside
  position T b hb := by simp [positionOf, Trace.position, hb]
  room t _ b hb := by rw [extent, hb]
  free _ hT := ⟨hT, rfl⟩

end Machine

/-! ## Whole runs -/

/-- The code of a kernel that can be simulated. -/
theorem Kernel.Simulable.exists_code (hk : k.Simulable) :
    ∃ c : Code, c.flatten = k.sequence ∧ c.Linked k ∧ c.Playable := by
  obtain ⟨c, hflat, hlinked⟩ := hk.balanced.exists_linked
  refine ⟨c, hflat, hlinked, ?_⟩
  have hsub : ∀ x ∈ c.flatten, x ∈ k.sequence := fun x hx => hflat ▸ hx
  clear hflat
  induction c with
  | done => trivial
  | op x rest ih =>
    exact ⟨hk.playable x (hsub x mem_cons_self) hlinked.1,
      ih hlinked.2 fun y hy => hsub y (mem_cons_of_mem x hy)⟩
  | loop b e body rest ihbody ihrest =>
    obtain ⟨⟨-, hclose, -⟩, hbody, hrest⟩ := hlinked
    obtain ⟨l, hl, -⟩ := hk.closes e (hsub e (by simp [Code.flatten])) hclose
    exact ⟨⟨l, hl⟩, ihbody hbody fun y hy => hsub y (by simp [Code.flatten, hy]),
      ihrest hrest fun y hy => hsub y (by simp [Code.flatten, hy])⟩

/-- A kernel that can be simulated is simulated, and a machine that runs it alone goes in
    lockstep. -/
theorem Kernel.Simulable.run (hk : k.Simulable) (A : Arithmetic α) {m : Machine α} (hm : m.Rested) :
    ∃ trace, Simulation.run k = .ok trace ∧
      Ends (Machine.runKernel A k none m) (fun _ m' => m'.Agrees k m trace) (trace.Strays k m) := by
  obtain ⟨c, hflat, hlinked, hplayable⟩ := hk.exists_code
  have horder : k.order = c.flatten.map Expr.id := by
    rw [hflat, Kernel.sequence, map_map]
    exact (map_congr_left hk.numbered).trans (map_id _) |>.symm
  have hread : ∀ x ∈ c.flatten, k.expr x.id = x := by
    rw [hflat]
    intro x hx
    obtain ⟨i, hi, rfl⟩ := mem_map.1 hx
    rw [hk.numbered i hi]
  have hexecute : ∀ {σ : Type} (act : Kernel.Actions σ), k.execute act = c.run act :=
    fun act => Kernel.execute_linked act horder hread (horder ▸ hk.distinct) hlinked
  obtain ⟨trace, hrun, -⟩ := Code.does_run hplayable {}
  refine ⟨trace, ?_, ?_⟩
  · rw [Simulation.run, hexecute, hrun]
  · rw [Machine.runKernel, hexecute]
    exact (Lockstep.code A hk hlinked fun x hx => hflat ▸ hx).agrees {} trace m (hm.agrees k) hrun

namespace Machine

variable {α : Type} {k : Kernel} {m0 m : Machine α} {s : Trace}

/-- The windows on a tensor are the accesses to it. -/
theorem Agrees.windowsOf (h : m.Agrees k m0 s) (T : TensorId) :
    m.windowsOf T = (s.accessesOf T).map m0.place := by
  rw [Machine.windowsOf, Trace.accessesOf, h.windows, filter_map]
  rfl

/-- A tensor that was stepped has memory, and has moved as far as the trace says. -/
theorem Agrees.stepped (h : m.Agrees k m0 s) {p : TensorId × Amount} (hp : p ∈ s.positions) :
    ∃ b, m.bindings.lookup p.1 = some b ∧ b.position = m0.positionOf p.1 + s.position p.1 := by
  cases hb : m.bindings.lookup p.1 with
  | none =>
    have hnone := (h.free p.1 hb).2
    exact absurd hp (by simpa using lookup_eq_none_iff.1 hnone p)
  | some b => exact ⟨b, rfl, h.position p.1 b hb⟩

/-- A run ends as the run of the machine that was set up. -/
theorem run_cases (A : Arithmetic α) (team : Option Executor) {inputs outputs : List (Array α)}
    (hsetup : setup k inputs outputs = .ok m) :
    (∃ m', runKernel A k team m = .ok () m' ∧ run A k team inputs outputs = .ok m') ∨
      ∃ f m', runKernel A k team m = .error f m' ∧ run A k team inputs outputs = .error f.guard := by
  rw [run, except_bind_ok hsetup]
  cases hrun : runKernel A k team m with
  | ok u m' => exact .inl ⟨m', rfl, rfl⟩
  | error f m' => exact .inr ⟨f, m', rfl, rfl⟩

theorem isOutOfBounds_guard (f : Failure) : f.guard.isOutOfBounds = f.isOutOfBounds := rfl

theorem isReturned_guard (f : Failure) : f.guard.isReturned = true := by
  rcases f with ⟨cause, guarded, contexts⟩
  cases cause <;> rfl

/-- A machine that runs a kernel alone follows the simulated run. If some access of the simulated
    run, counted from where the tensor stands at first, does not lie within the memory of the
    tensor, the run returns an error. If all of them do, the run does not fail out of bounds, and
    where it succeeds the windows on each tensor are the accesses to it, in order, and each tensor
    that was stepped has moved as far as the simulated run says. -/
theorem run_follows_simulation (A : Arithmetic α) (hk : k.Simulable)
    {inputs outputs : List (Array α)}
    (hsetup : setup k inputs outputs = .ok m) :
    ∃ trace, Simulation.run k = .ok trace ∧
      ((∃ t ∈ k.tensors, ∃ a ∈ trace.accessesOf t.id, m.Misses t a) →
        ∃ f, run A k none inputs outputs = .error f ∧ f.isReturned = true) ∧
      ((∀ t ∈ k.tensors, ∀ a ∈ trace.accessesOf t.id, ¬m.Misses t a) →
        (∀ f, run A k none inputs outputs = .error f → f.isOutOfBounds = false) ∧
        ∀ m', run A k none inputs outputs = .ok m' →
          (∀ T, m'.windowsOf T = (trace.accessesOf T).map m.place) ∧
          ∀ p ∈ trace.positions, ∃ b, m'.bindings.lookup p.1 = some b ∧
            b.position = m.positionOf p.1 + trace.position p.1) := by
  obtain ⟨trace, htrace, hends⟩ := hk.run A (rested_of_setup hsetup)
  have hrun := run_cases A none hsetup
  refine ⟨trace, htrace, ?_, ?_⟩
  · rintro ⟨t, ht, a, ha, hmisses⟩
    obtain ⟨ha, hat⟩ := mem_filter.1 ha
    rcases hrun with ⟨m', hm', -⟩ | ⟨f, m', -, herror⟩
    · rw [hm'] at hends
      exact absurd hmisses (hends.fits t ht a ha (of_decide_eq_true hat))
    · exact ⟨f.guard, herror, isReturned_guard f⟩
  · intro hfits
    have hstays : ¬trace.Strays k m := by
      rintro ⟨t, ht, a, ha, hat, hmisses⟩
      exact hfits t ht a (mem_filter.2 ⟨ha, decide_eq_true hat⟩) hmisses
    rcases hrun with ⟨m', hm', hok⟩ | ⟨f, m', hf, herror⟩
    · rw [hm'] at hends
      rw [hok]
      constructor
      · intro f hf
        cases hf
      · intro m'' hm''
        obtain rfl := Except.ok.inj hm''
        exact ⟨hends.windowsOf, fun p hp => hends.stepped hp⟩
    · rw [hf] at hends
      rw [herror]
      constructor
      · intro g hg
        obtain rfl := Except.error.inj hg
        rw [isOutOfBounds_guard, ← Bool.not_eq_true]
        exact fun hout => hstays (hends hout)
      · intro m'' hm''
        cases hm''

/-- Three rows of 37 exponentials, in vectors of sixteen with a tail. -/
def expRows : Kernel := (Demo.exp.lower 16 {}).toOption.getD default

/-- The nests of the three rows. -/
def expRowsCode : Code :=
  .op (expRows.expr 0) (.loop (expRows.expr 5) (expRows.expr 6)
    (.loop (expRows.expr 7) (expRows.expr 8) (.ofOps [expRows.expr 1, expRows.expr 2, expRows.expr 3] .done)
      (.loop (expRows.expr 9) (expRows.expr 13)
      (.ofOps [expRows.expr 10, expRows.expr 11, expRows.expr 12] .done) .done))
    (.op (expRows.expr 4) .done))

/-- The machine for the three rows, on zeros. -/
def expRowsMachine : Machine Float32 :=
  (setup expRows [Array.replicate 111 0] [Array.replicate 111 0]).toOption.getD {}

/-- The trace of the three rows. -/
def expRowsTrace : Trace :=
  endState (expRowsCode.run { run := Simulation.runExpr, loop := fun _ e body => Simulation.runLoop e body } {})

theorem setup_expRows : setup expRows [Array.replicate 111 0] [Array.replicate 111 0] = .ok expRowsMachine := by
  have hok : (setup expRows [Array.replicate 111 (0 : Float32)] [Array.replicate 111 0]).toOption.isSome := by
    decide +kernel
  unfold expRowsMachine
  cases hsetup : setup expRows [Array.replicate 111 (0 : Float32)] [Array.replicate 111 0] with
  | error f =>
    rw [hsetup] at hok
    cases hok
  | ok m => rfl

theorem simulate_expRows : Simulation.run expRows = .ok expRowsTrace := by
  have hlinked : expRowsCode.Linked expRows := by
    simp only [expRowsCode, Code.ofOps, Code.Linked]
    decide +kernel
  have hexecute := Kernel.execute_linked { run := Simulation.runExpr, loop := fun _ e body => Simulation.runLoop e body }
    (by decide +kernel) (by decide +kernel) (by decide +kernel) hlinked
  rw [Simulation.run, hexecute]
  decide +kernel

/-- On zeros nothing of the three rows lies out of bounds, and the windows are the accesses. -/
theorem run_follows_expRows :
    expRows.Simulable ∧
    setup expRows [Array.replicate 111 0] [Array.replicate 111 0] = .ok expRowsMachine ∧
    Simulation.run expRows = .ok expRowsTrace ∧
    (∀ t ∈ expRows.tensors, ∀ a ∈ expRowsTrace.accessesOf t.id, ¬expRowsMachine.Misses t a) ∧
    (∀ f, run .single expRows none [Array.replicate 111 0] [Array.replicate 111 0] = .error f →
      f.isOutOfBounds = false) ∧
    ∀ m, run .single expRows none [Array.replicate 111 0] [Array.replicate 111 0] = .ok m →
      m.windowsOf 0 = (expRowsTrace.accessesOf 0).map expRowsMachine.place := by
  have hk : expRows.Simulable := by decide +kernel
  have hfits : ∀ t ∈ expRows.tensors, ∀ a ∈ expRowsTrace.accessesOf t.id,
    ¬expRowsMachine.Misses t a := by decide +kernel
  obtain ⟨trace, htrace, -, hfollows⟩ := run_follows_simulation .single hk setup_expRows
  obtain rfl := Except.ok.inj (simulate_expRows.symm.trans htrace)
  obtain ⟨hbounds, hwindows⟩ := hfollows hfits
  exact ⟨hk, setup_expRows, simulate_expRows, hfits, hbounds, fun m hm => (hwindows m hm).1 0⟩

end Machine

end KernelLoops
