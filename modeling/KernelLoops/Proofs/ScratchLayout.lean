import KernelLoops.Proofs.BufferSeparation

set_option autoImplicit false

/-! # The layout of the scratch memory

Whatever colors the buffers have, few or many, in a row or scattered, placing them gives every color
a slot of its own: slots begin at multiples of the alignment, follow each other without a gap and
are as long as the largest buffer of the color, rounded up. Nothing is asked of the kernel but that
its buffers have sizes and that the slots can be counted in words. -/

namespace KernelLoops

namespace Kernel

variable (k : Kernel) (size : ExprId → Amount)

/-- The colors in use. -/
def colors : Finset Int := ((k.ofKind .buffer).map fun b => (k.expr b).bufferId).toFinset

/-- The bytes of the slot of a color: the largest buffer of the color, rounded up to the
    alignment. -/
def slot (c : Int) : Int :=
  slotSize k.slotAlignment
    ((((k.ofKind .buffer).filter fun b => (k.expr b).bufferId = c).map fun b => (size b).toInt).foldl max 0)

end Kernel

namespace Buffers

variable {k : Kernel} {size : ExprId → Amount}

theorem mem_colors {c : Int} : c ∈ k.colors ↔ c ∈ slotColors k := by
  rw [Kernel.colors, List.mem_toFinset, mem_slotColors, List.mem_map]

/-- Every color has one slot. -/
theorem sum_slotColors (f : Int → Int) : ((slotColors k).map f).sum = ∑ c ∈ k.colors, f c := by
  have hcolors : k.colors = (slotColors k).toFinset := by
    ext c
    rw [mem_colors, List.mem_toFinset]
  rw [hcolors, List.sum_toFinset f (nodup_slotColors k)]

theorem slot_eq_room (c : Int) : k.slot size c =
    room (k.ofKind .buffer) (fun b => (k.expr b).bufferId) (fun b => (size b).toInt) k.slotAlignment c := rfl

theorem slot_nonneg (c : Int) : 0 ≤ k.slot size c := by
  rw [slot_eq_room]
  exact room_nonneg _ _ _ (slotAlignment_pos k) c

/-- No buffer is larger than all slots together. -/
theorem size_le_sum_slot {b : ExprId} (hb : b ∈ k.ofKind .buffer) :
    (size b).toInt ≤ ∑ c ∈ k.colors, k.slot size c := by
  have hcolor : (k.expr b).bufferId ∈ k.colors := mem_colors.2 (mem_slotColors.2 ⟨b, hb, rfl⟩)
  have hroom := size_le_room (fun b => (k.expr b).bufferId) (fun b => (size b).toInt) (slotAlignment_pos k) hb
  rw [← slot_eq_room] at hroom
  exact hroom.trans (Finset.single_le_sum (fun c _ => slot_nonneg c) hcolor)

/-- Placing buffers of any colors lays out the scratch memory: every buffer lies inside it, buffers
    of one color start at one place, buffers of two colors have no byte in common, every place and
    the size of the memory are multiples of the alignment, and the size is that of the slots of all
    colors. -/
theorem place_lays_out {k : Kernel} (size : ExprId → Amount)
    (hsize : ∀ b ∈ k.ofKind .buffer, (k.expr b).byteSize = .ok (size b) ∧ 0 ≤ size b)
    (hfits : ∑ c ∈ k.colors, k.slot size c + k.slotAlignment < 0x8000000000000000) :
    ∃ k', place k = .ok (!(k.ofKind .buffer).isEmpty) k' ∧ SamePlan k k' ∧
      (∀ b ∈ k.ofKind .buffer, 0 ≤ (k'.expr b).bufferOffset ∧
        (k'.expr b).bufferOffset.toInt + (size b).toInt ≤ k'.scratchSize.toInt) ∧
      (∀ a ∈ k.ofKind .buffer, ∀ b ∈ k.ofKind .buffer, (k.expr a).bufferId = (k.expr b).bufferId →
        (k'.expr a).bufferOffset = (k'.expr b).bufferOffset) ∧
      (∀ a ∈ k.ofKind .buffer, ∀ b ∈ k.ofKind .buffer, (k.expr a).bufferId ≠ (k.expr b).bufferId →
        Disjoint ((k'.expr a).bytes (size a)) ((k'.expr b).bytes (size b))) ∧
      (∀ b ∈ k.ofKind .buffer, k.slotAlignment ∣ (k'.expr b).bufferOffset.toInt) ∧
      k.slotAlignment ∣ k'.scratchSize.toInt ∧ k'.scratchSize.toInt = ∑ c ∈ k.colors, k.slot size c := by
  have hk : Sized (k.ofKind .buffer) (fun b => (k.expr b).bufferId) (fun b => (size b).toInt) k := by
    refine ⟨fun b hb => lt_size_of_buffer hb, fun _ _ => rfl, fun b hb n hn => ?_, fun b hb => ?_⟩
    · rw [(hsize b hb).1] at hn
      rw [Except.ok.inj hn]
    · exact Amount.le_iff.1 (hsize b hb).2
  have hpos := slotAlignment_pos k
  have hsum : ((slotColors k).map (k.slot size)).sum = ∑ c ∈ k.colors, k.slot size c := sum_slotColors _
  obtain ⟨k', hrun, hscratch, hspread⟩ := hk.place
    (fun b hb => by
      have hle : (size b).toInt ≤ ∑ c ∈ k.colors, k.slot size c := size_le_sum_slot hb
      omega)
    (show ((slotColors k).map (k.slot size)).sum < _ by omega) fun b hb => ⟨size b, (hsize b hb).1⟩
  have htotal : k'.scratchSize.toInt = ∑ c ∈ k.colors, k.slot size c := hscratch.trans hsum
  have hmem : ∀ {b}, b ∈ k.ofKind .buffer → (k.expr b).bufferId ∈ slotColors k :=
    fun hb => mem_slotColors.2 ⟨_, hb, rfl⟩
  have hplan : SamePlan k k' := by
    have := SamePlan.place k (.refl k)
    rwa [hrun] at this
  refine ⟨k', hrun, hplan, fun b hb => ⟨?_, hspread.stop b hb (hmem hb)⟩, ?_, ?_, ?_, ?_, htotal⟩
  · exact Amount.le_iff.2 (hspread.start b hb (hmem hb))
  · exact fun a ha b hb hab => hspread.shared a ha b hb (hmem ha) hab
  · exact fun a ha b hb hne => disjoint_bytes_of_apart (hspread.apart a ha b hb (hmem ha) (hmem hb) hne)
  · intro b hb
    have := hspread.aligned b hb (hmem hb)
    rwa [Int.sub_zero] at this
  · rw [htotal]
    exact Finset.dvd_sum fun c _ => dvd_room _ _ _ _ c

/-- Two buffers of 64 and of 4 bytes with colors that are far apart, the second one's below zero. -/
def scattered : Kernel :=
  let k := (twoBuffers 1 true).kernel
  { k with exprs := (k.exprs.modify 4 fun x => { x with bufferId := 5 }).modify 7 fun x => { x with bufferId := -3 } }

/-- The scattered buffers take one slot of 64 bytes each. -/
theorem place_lays_out_scattered : ∃ k', place scattered = .ok true k' ∧ k'.scratchSize.toInt = 128 ∧
    Disjoint ((k'.expr 4).bytes 64) ((k'.expr 7).bytes 4) := by
  have hbuffers : scattered.ofKind .buffer = [4, 7] := by cbv
  have hids : (scattered.expr 4).bufferId = 5 ∧ (scattered.expr 7).bufferId = -3 := by cbv
  have hsizes : (scattered.expr 4).byteSize = .ok 64 ∧ (scattered.expr 7).byteSize = .ok 4 := by
    cbv
    decide
  have halign : scattered.slotAlignment = 64 := by cbv
  have hcolors : scattered.colors = {5, -3} := by simp [Kernel.colors, hbuffers, hids]
  have hslots : ∑ c ∈ scattered.colors, scattered.slot (fun b => if b = 4 then 64 else 4) c = 128 := by
    rw [hcolors, Finset.sum_pair (by decide)]
    simp [Kernel.slot, hbuffers, hids, halign]
    decide
  obtain ⟨k', hrun, -, -, -, hdisjoint, -, -, hscratch⟩ :=
    place_lays_out (k := scattered) (fun b => if b = 4 then 64 else 4) (by simp [hbuffers, hsizes])
      (by rw [hslots, halign]; decide)
  rw [hbuffers] at hrun hdisjoint
  exact ⟨k', hrun, hscratch.trans hslots, hdisjoint 4 (by simp) 7 (by simp) (by simp [hids])⟩

end Buffers

end KernelLoops
