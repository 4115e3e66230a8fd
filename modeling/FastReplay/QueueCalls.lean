import FastReplay.RingQueue

/-! What a caller of the ring sees of the queue it represents, call by call. -/
namespace FastReplay

def RingBuffer.held (rb : RingBuffer) : List CInt :=
  CyclicIndex.window rb.buf rb.head.toNat rb.exact.size

namespace Represents
open RingBuffer (Agrees)

variable {rb : RingBuffer} {entries : List CInt}

theorem held (h : Represents rb entries) : rb.held = entries := h.stores.contents

theorem pushRun (h : Represents rb entries) (room : entries.length < rb.capacity.toNat) (v : CInt) :
    ∃ after, (RingBuffer.push v).run rb = .ok true after ∧ Represents after (entries ++ [v]) ∧
      after.capacity = rb.capacity := by
  obtain ⟨after,run,exactAfter,admitted⟩ := RingBuffer.pushRun h.admitted v
  obtain ⟨flag,stores⟩ := h.stores.pushRoom room v
  rw [flag] at run
  rw [← exactAfter] at stores
  exact ⟨after,run,⟨admitted,stores⟩,
    sameCapacity (by rw [exactAfter]; exact rb.exact.pushCapacity v)⟩

theorem popValueRun {v : CInt} {rest : List CInt} (h : Represents rb (v::rest)) :
    ∃ after, RingBuffer.popValue.run rb = .ok (some v) after ∧ Represents after rest ∧
      after.capacity = rb.capacity := by
  obtain ⟨after,run,exactAfter,admitted⟩ := RingBuffer.popRun h.admitted (some 0)
  obtain ⟨result,stores⟩ := h.stores.pop (some 0)
  rw [result] at run
  rw [← exactAfter] at stores
  refine ⟨after,?_,⟨admitted,stores⟩,
    sameCapacity (by rw [exactAfter]; exact rb.exact.popCapacity (some 0))⟩
  simp [RingBuffer.popValue,run,ExactRing.popped,BoundedQueue.poll]

theorem sizeRun (h : Represents rb entries) :
    ∃ n, RingBuffer.size.run rb = .ok n rb ∧ n.toNat = entries.length := by
  obtain ⟨n,run,word⟩ := RingBuffer.sizeRun h.admitted
  exact ⟨n,run,by rw [word,h.stores.size]⟩

theorem asarrayRun (h : Represents rb entries) : RingBuffer.asarray.run rb = .ok rb.buf rb := by
  have slots := h.admitted.slots
  have shape := h.admitted.modulus
  simp only [RingBuffer.asarray,EStateM.run_bind,EStateM.run_get,shape,slots,Nat.le_refl,if_true]
  simp [← slots]

theorem int64Word {n : SizeT} (small : n.toNat < 2^63) : n.toInt64.toInt = n.toNat := by
  rw [← Int64.toInt_toBitVec,UInt64.toBitVec_toInt64]
  exact BitVec.toInt_eq_toNat_of_lt (by rw [UInt64.toNat_toBitVec]; omega)

theorem slotsBelow {std : StdVector} {gen : Generator} {b : Nat} {slots : List Nat}
    (h : Represents rb entries) (sampled : rb.exact.sampleIndices std gen b = .ok slots) :
    ∀ n ∈ slots, n < rb.buf.length := by
  unfold ExactRing.sampleIndices at sampled
  split at sampled <;> try contradiction
  split at sampled <;> try contradiction
  cases Except.ok.inj sampled
  intro n mem
  obtain ⟨i,_,rfl⟩ := List.mem_map.mp mem
  rw [h.admitted.slots]
  exact Nat.mod_lt _ (Nat.succ_pos _)

theorem sampleInt64Run (h : Represents rb entries) (std : StdVector) (gen : Generator) (b : SizeT) :
    match rb.exact.sampleIndices std gen b.toNat with
    | .ok slots => ∃ inds, (RingBuffer.sampleIndicesInt64 std gen b).run rb = .ok inds rb ∧
        inds.map Int64.toInt = slots.map Int.ofNat
    | .error e => (RingBuffer.sampleIndicesInt64 std gen b).run rb = .error (.raised e) rb := by
  have agrees := RingBuffer.sampleIndicesRun h.admitted std gen b
  unfold RingBuffer.sampleIndicesInt64
  simp only [EStateM.run_bind]
  split
  · rename_i slots sampled
    rw [sampled] at agrees
    obtain ⟨words,after,result,same,kept,_⟩ := agreesOk agrees
    rw [result,exactInjective kept,← same]
    refine ⟨_,rfl,?_⟩
    rw [List.map_map,List.map_map]
    refine List.map_congr_left fun n mem => int64Word ?_
    have inside := h.slotsBelow sampled n.toNat (by rw [← same]; exact List.mem_map_of_mem mem)
    have slots := h.admitted.slots
    have small := h.admitted.small
    omega
  · rename_i e sampled
    rw [sampled] at agrees
    rw [agreesRefused agrees]

def slot (rb : RingBuffer) (i : Nat) : Nat := (rb.head.toNat + i) % (rb.capacity.toNat + 1)

theorem sampleIs (h : Represents rb entries) (nonempty : entries ≠ []) (std : StdVector)
    (gen : Generator) (b : Nat) :
    rb.exact.sampleIndices std gen b = if std.maxWords < b then .error .lengthError
      else .ok ((List.range b).map fun i => slot rb (gen.draw (entries.length-1) i)) := by
  unfold ExactRing.sampleIndices
  rw [h.stores.size,if_neg (mt List.length_eq_zero_iff.mp nonempty)]
  rfl

end Represents
end FastReplay
