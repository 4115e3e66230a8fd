import FastReplay.StoredElements

/-! np.asarray(rb)[:n] for a ring of n elements, without sample_indices: which of
its entries are elements. -/
namespace FastReplay
open GuardedRun

namespace Represents
variable {rb : RingBuffer} {entries : List CInt}

theorem sliceIsLive (h : Represents rb entries) (nonempty : 0 < entries.length) :
    liveSlots rb = Finset.range entries.length ↔ rb.head.toNat = 0 := by
  rw [h.liveArc]
  exact CyclicIndex.arcIsPrefix h.admitted.head (Nat.lt_succ_of_le h.stores.fits) nonempty

theorem slotsInOrder (h : Represents rb entries) (nonempty : 0 < entries.length) :
    (∀ i, i < entries.length → slot rb i = i) ↔ rb.head.toNat = 0 := by
  have fits : entries.length ≤ rb.capacity.toNat := h.stores.fits
  unfold slot
  constructor
  · intro same
    have first := same 0 nonempty
    rwa [Nat.add_zero,Nat.mod_eq_of_lt h.admitted.head] at first
  · intro start i inside
    rw [start,Nat.zero_add,Nat.mod_eq_of_lt (by omega)]

theorem liveCount (h : Represents rb entries) : (liveSlots rb).card = entries.length := by
  rw [h.liveArc]
  exact CyclicIndex.arcCard h.admitted.head (Nat.lt_succ_of_le h.stores.fits)

theorem sliceInOrder (h : Represents rb entries) (start : rb.head.toNat = 0) :
    rb.buf.take entries.length = entries := by
  have front := h.held
  rw [RingBuffer.held,h.stores.size,start,CyclicIndex.window,List.rotate_zero] at front
  exact front

theorem sliceMisses (h : Represents rb entries) :
    (Finset.range entries.length \ liveSlots rb).card
      = (liveSlots rb \ Finset.range entries.length).card := by
  apply Finset.card_sdiff_comm
  rw [Finset.card_range,h.liveCount]

theorem sliceStale (h : Represents rb entries) (nonempty : 0 < entries.length)
    (moved : rb.head.toNat ≠ 0) : ∃ i, i < entries.length ∧ i ∉ liveSlots rb := by
  by_contra fresh
  refine moved ((h.sliceIsLive nonempty).mp (Finset.eq_of_subset_of_card_le ?_ ?_).symm)
  · intro i inside
    by_contra dead
    exact fresh ⟨i,Finset.mem_range.mp inside,dead⟩
  · rw [h.liveCount,Finset.card_range]

end Represents

theorem plainSliceExactly (std : StdVector) (capacity : SizeT) (rb : RingBuffer)
    (made : RingBuffer.construct std capacity = .ok rb) (ops : List Op)
    (allowed : Meets (step std) Op.Allowed ⟨rb,[]⟩ ops) (s : Session RingBuffer SizeT)
    (run : exec (step std) ⟨rb,[]⟩ ops = some s) (count : SizeT)
    (sized : RingBuffer.size.run s.ring = .ok count s.ring) (nonempty : 1 ≤ count.toNat) :
    ∃ view, RingBuffer.asarray.run s.ring = .ok view s.ring ∧
      (unpopped ops s.results).length = count.toNat ∧
      (liveSlots s.ring = Finset.range count.toNat ↔ s.ring.head = 0) ∧
      ((∀ i, i < count.toNat → Represents.slot s.ring i = i) ↔ s.ring.head = 0) ∧
      (s.ring.head = 0 → view.take count.toNat = unpopped ops s.results) ∧
      (s.ring.head ≠ 0 → (∃ i, i < count.toNat ∧ i ∉ liveSlots s.ring) ∧
        (Finset.range count.toNat \ liveSlots s.ring).card
          = (liveSlots s.ring \ Finset.range count.toNat).card) := by
  obtain ⟨h,_,word⟩ := sizedStored made allowed run sized
  have start : s.ring.head = 0 ↔ s.ring.head.toNat = 0 := by rw [← UInt64.toNat_inj,UInt64.toNat_zero]
  rw [word] at nonempty ⊢
  refine ⟨s.ring.buf,h.asarrayRun,rfl,(h.sliceIsLive nonempty).trans start.symm,
    (h.slotsInOrder nonempty).trans start.symm,?_,?_⟩
  · intro zero
    exact h.sliceInOrder (start.mp zero)
  · intro moved
    exact ⟨h.sliceStale nonempty (mt start.mpr moved),h.sliceMisses⟩

theorem plainSliceExactlyAtThree :
    exec (step StdVector.small) ⟨⟨3,[0,0,0,0],0,0⟩,[]⟩
        [.push 5,.push 6,.pop (some 0),.push 7]
      = some ⟨⟨3,[5,6,7,0],1,3⟩,[.ok (.flag true),.ok (.flag true),.ok (.popped true (some 5)),
        .ok (.flag true)]⟩ ∧
      (∃ i, i < 2 ∧ i ∉ liveSlots ⟨3,[5,6,7,0],1,3⟩) ∧
      (Finset.range 2 \ liveSlots ⟨3,[5,6,7,0],1,3⟩).card
        = (liveSlots ⟨3,[5,6,7,0],1,3⟩ \ Finset.range 2).card := by
  have allowed : Meets (step StdVector.small) Op.Allowed ⟨⟨3,[0,0,0,0],0,0⟩,[]⟩
      [.push 5,.push 6,.pop (some 0),.push 7] :=
    meetsAlways (by simp [Op.Allowed]) _
  have run : exec (step StdVector.small) ⟨⟨3,[0,0,0,0],0,0⟩,[]⟩
      [.push 5,.push 6,.pop (some 0),.push 7]
      = some ⟨⟨3,[5,6,7,0],1,3⟩,[.ok (.flag true),.ok (.flag true),.ok (.popped true (some 5)),
        .ok (.flag true)]⟩ := rfl
  obtain ⟨_,_,_,_,_,_,stale⟩ := plainSliceExactly StdVector.small 3 ⟨3,[0,0,0,0],0,0⟩ (by decide) _
    allowed _ run 2 rfl (by decide)
  exact ⟨run,stale (by decide)⟩

end FastReplay
