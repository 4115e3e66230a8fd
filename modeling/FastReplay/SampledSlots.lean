import FastReplay.StoreHistory
import FastReplay.StoredElements

/-! sample_indices of one thread's ring: every draw names a live slot, and every
live slot is one draw. -/
namespace FastReplay
open GuardedRun

structure NamesEntry (rb : RingBuffer) (entries : List CInt) (d : Nat) (index : SizeT) : Prop where
  kept : index.toInt64.toInt = index.toNat
  slot : index.toNat = Represents.slot rb d
  below : index.toNat < rb.capacity.toNat+1
  live : index.toNat ∈ liveSlots rb
  notSpare : index ≠ rb.tail
  element : ∃ view v, RingBuffer.asarray.run rb = .ok view rb ∧ view[index.toNat]? = some v ∧
    entries[d]? = some v

/- sample_indices against the elements a ring stores. A batch the vector of the
result cannot hold is refused by that vector. -/
structure DrawsLive (std : StdVector) (rb : RingBuffer) (entries : List CInt) : Prop where
  nothing : entries = [] → ∀ gen b,
    (RingBuffer.sampleIndicesInt64 std gen b).run rb
      = .error (.raised (.runtimeError "sample_indices: buffer is empty")) rb
  tooLong : entries ≠ [] → ∀ gen b, std.maxWords < b.toNat →
    (RingBuffer.sampleIndicesInt64 std gen b).run rb = .error (.raised .lengthError) rb
  drawn : entries ≠ [] → ∀ gen b, b.toNat ≤ std.maxWords → ∃ indices,
    (RingBuffer.sampleIndices std gen b).run rb = .ok indices rb ∧
    (RingBuffer.sampleIndicesInt64 std gen b).run rb = .ok (indices.map UInt64.toInt64) rb ∧
    indices.length = b.toNat ∧
    ∀ (i : Nat) index, indices[i]? = some index →
      NamesEntry rb entries (gen.draw (entries.length-1) i) index
  covers : Set.BijOn (Represents.slot rb) (Set.Iio entries.length) (liveSlots rb)

namespace Represents
variable {rb : RingBuffer} {entries : List CInt}

theorem namesEntry (h : Represents rb entries) {d : Nat} {index : SizeT} (drawn : d < entries.length)
    (names : index.toNat = slot rb d) : NamesEntry rb entries d index := by
  have small := h.admitted.small
  have live : index.toNat ∈ liveSlots rb := by
    rw [names]
    exact h.slotsLive.mapsTo drawn
  have below : index.toNat < rb.capacity.toNat+1 := (CyclicIndex.memArc.mp live).1
  refine ⟨int64Word (by omega),names,below,live,?_,?_⟩
  · rintro rfl
    exact CyclicIndex.arcStop _ _ _ live
  · refine ⟨rb.buf,entries[d],h.asarrayRun,?_,List.getElem?_eq_getElem drawn⟩
    rw [names,h.liveEntry drawn,List.getElem?_eq_getElem drawn]

theorem sampleRefused (h : Represents rb entries) (std : StdVector) (gen : Generator) (b : SizeT)
    {e : Exception} (refused : rb.exact.sampleIndices std gen b.toNat = .error e) :
    (RingBuffer.sampleIndicesInt64 std gen b).run rb = .error (.raised e) rb := by
  have run := h.sampleInt64Run std gen b
  rwa [refused] at run

theorem sampleRun (h : Represents rb entries) (nonempty : entries ≠ []) (std : StdVector)
    (gen : Generator) {b : SizeT} (fits : b.toNat ≤ std.maxWords) :
    ∃ indices, (RingBuffer.sampleIndices std gen b).run rb = .ok indices rb ∧
      (RingBuffer.sampleIndicesInt64 std gen b).run rb = .ok (indices.map UInt64.toInt64) rb ∧
      indices.map UInt64.toNat
        = (List.range b.toNat).map fun i => slot rb (gen.draw (entries.length-1) i) := by
  have agrees := RingBuffer.sampleIndicesRun h.admitted std gen b
  rw [h.sampleIs nonempty,if_neg (by omega)] at agrees
  obtain ⟨indices,after,run,names,kept,_⟩ := agreesOk agrees
  cases exactInjective kept
  refine ⟨indices,run,?_,names⟩
  simp only [RingBuffer.sampleIndicesInt64,EStateM.run_bind,run,EStateM.run_pure]

theorem drawsLive (h : Represents rb entries) (std : StdVector) : DrawsLive std rb entries where
  nothing empty gen b := by
    refine h.sampleRefused std gen b ?_
    rw [ExactRing.sampleIndices,h.stores.size,if_pos (List.length_eq_zero_iff.mpr empty)]
  tooLong nonempty gen b long := by
    refine h.sampleRefused std gen b ?_
    rw [h.sampleIs nonempty,if_pos long]
  drawn nonempty gen b fits := by
    obtain ⟨indices,run,cast,names⟩ := h.sampleRun nonempty std gen fits
    have length := congrArg List.length names
    simp only [List.length_map,List.length_range] at length
    refine ⟨indices,run,cast,length,fun i index found => ?_⟩
    have inside := AppendLog.below found
    have positive := List.length_pos_of_ne_nil nonempty
    have inRange := gen.inRange (entries.length-1) i
    refine h.namesEntry (by omega) ?_
    have named := congrArg (·[i]?) names
    simpa [List.getElem?_map,found,List.getElem?_range (length ▸ inside)] using named
  covers := h.slotsLive

end Represents

theorem zeroUndrawn {std : StdVector} {rb : RingBuffer} (zero : rb.capacity+1 = 0) :
    ¬ DrawsLive std rb [] := by
  intro draws
  have raised := draws.nothing rfl (.always 0) 1
  simp only [RingBuffer.sampleIndicesInt64,RingBuffer.sampleIndices,EStateM.run_bind,EStateM.run_get,
    zeroModulo zero] at raised
  cases raised

theorem drawsLiveExactly (std : StdVector) (capacity : SizeT) (rb : RingBuffer)
    (made : RingBuffer.construct std capacity = .ok rb) :
    (∀ ops s, Meets (step std) Op.Allowed ⟨rb,[]⟩ ops → exec (step std) ⟨rb,[]⟩ ops = some s →
      DrawsLive std s.ring (unpopped ops s.results)) ↔ capacity.toNat ≠ 2^64-1 :=
  reachedExactly made (fun _ _ h => h.drawsLive std) (fun _ => zeroUndrawn)

theorem drawsLiveExactlyAtThree :
    (∀ ops s, Meets (step StdVector.small) Op.Allowed ⟨⟨3,[0,0,0,0],0,0⟩,[]⟩ ops →
      exec (step StdVector.small) ⟨⟨3,[0,0,0,0],0,0⟩,[]⟩ ops = some s →
      DrawsLive StdVector.small s.ring (unpopped ops s.results)) ↔ (3 : SizeT).toNat ≠ 2^64-1 :=
  drawsLiveExactly StdVector.small 3 ⟨3,[0,0,0,0],0,0⟩ (by decide)

theorem largestCapacitySample :
    RingBuffer.construct StdVector.small 18446744073709551615
        = .ok ⟨18446744073709551615,[],0,0⟩ ∧
      (RingBuffer.sampleIndicesInt64 StdVector.small (.always 0) 1).run
          ⟨18446744073709551615,[],0,0⟩
        = .error .divideByZero ⟨18446744073709551615,[],0,0⟩ ∧
      ¬ ∀ std capacity rb, RingBuffer.construct std capacity = .ok rb →
        ∀ ops s, Meets (step std) Op.Allowed ⟨rb,[]⟩ ops → exec (step std) ⟨rb,[]⟩ ops = some s →
          DrawsLive std s.ring (unpopped ops s.results) := by
  refine ⟨by decide,rfl,?_⟩
  intro always
  exact zeroUndrawn (by decide) (always StdVector.small 18446744073709551615
    ⟨18446744073709551615,[],0,0⟩ (by decide) [] ⟨⟨18446744073709551615,[],0,0⟩,[]⟩ trivial rfl)

end FastReplay
