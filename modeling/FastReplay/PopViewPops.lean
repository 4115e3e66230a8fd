import FastReplay.StoredElements

/-! pop_view(n) of the binding against n calls of its pop, from every ring a
session can leave. -/
namespace FastReplay
open GuardedRun

namespace RingBuffer

def arrayValues (rb : RingBuffer) : PyArray SizeT → List CInt
  | .view start count => (rb.buf.drop start.toNat).take count.toNat
  | .copied values => values

def popTimes : Nat → Call (List (Option CInt))
  | 0 => return []
  | n+1 => do
    let value ← popValue
    let rest ← popTimes n
    return value::rest

/- Too large an n throws, and a result array that cannot be built throws: the
ring is then untouched. Otherwise pop_view and the n pops end in one ring. -/
def PopViewPops (rb : RingBuffer) : Prop :=
  ∃ count, size.run rb = .ok count rb ∧ ∀ n : SizeT,
    (count < n → ∀ built,
      (popView built n).run rb = .error (.raised (.runtimeError "Not enough data.")) rb) ∧
    (n ≤ count →
      (popView false n).run rb = .error (.raised .badAlloc) rb ∧
      ∃ array values after, (popView true n).run rb = .ok array after ∧
        (popTimes n.toNat).run rb = .ok (values.map some) after ∧
        values.length = n.toNat ∧ arrayValues after array = values ∧
        array = if rb.head.toNat+n.toNat ≤ rb.capacity.toNat+1 then .view rb.head n
          else .copied values)

theorem arrayExactInjective {a b : PyArray SizeT} (same : arrayExact a = arrayExact b) : a = b := by
  cases a with
  | view start count =>
    cases b with
    | view start' count' =>
      obtain ⟨first,second⟩ := PyArray.view.inj same
      rw [UInt64.toNat_inj.mp first,UInt64.toNat_inj.mp second]
    | copied values => simp [arrayExact] at same
  | copied values =>
    cases b with
    | view start count => simp [arrayExact] at same
    | copied values' => rw [PyArray.copied.inj same]

end RingBuffer

namespace Represents
open RingBuffer (popView popValue popTimes arrayValues arrayExact PopViewPops)

variable {rb : RingBuffer} {entries : List CInt}

theorem popAdvances {v : CInt} {rest : List CInt} (h : Represents rb (v::rest)) :
    ∃ after, popValue.run rb = .ok (some v) after ∧ Represents after rest ∧
      after.exact = rb.exact.advanceHead 1 := by
  obtain ⟨after,run,exactAfter,_⟩ := RingBuffer.popRun h.admitted (some 0)
  obtain ⟨popped,value,kept,_⟩ := h.popValueRun
  have apart : rb.exact.head ≠ rb.exact.tail := fun same => by simpa using h.stores.emptyIff.mp same
  refine ⟨popped,value,kept,?_⟩
  have same : popped = after := by
    simp only [popValue,EStateM.run_bind,run] at value
    exact (EStateM.Result.ok.inj value).2.symm
  rw [same,exactAfter,ExactRing.popAdvance apart]

theorem popTimesRun (h : Represents rb entries) {n : Nat} (enough : n ≤ entries.length) :
    ∃ after, (popTimes n).run rb = .ok ((entries.take n).map some) after ∧
      after.exact = rb.exact.advanceHead n := by
  induction n generalizing rb entries with
  | zero =>
    refine ⟨rb,rfl,?_⟩
    have head := Nat.mod_eq_of_lt h.stores.head
    simp [ExactRing.advanceHead,head]
  | succ n ih =>
    cases entries with
    | nil => simp at enough
    | cons v rest =>
      obtain ⟨next,first,kept,once⟩ := h.popAdvances
      obtain ⟨after,later,times⟩ := ih kept (Nat.le_of_succ_le_succ enough)
      refine ⟨after,?_,?_⟩
      · simp [popTimes,first,later]
      · rw [times,once,ExactRing.advanceTwice]

theorem popViewPops (h : Represents rb entries) : PopViewPops rb := by
  obtain ⟨count,sized,word⟩ := h.sizeRun
  refine ⟨count,sized,fun n => ⟨fun short built => ?_,fun enough => ⟨?_,?_⟩⟩⟩
  · have agrees := RingBuffer.popViewRun h.admitted built n
    have less : entries.length < n.toNat := by rw [← word]; exact UInt64.lt_iff_toNat_lt.mp short
    rw [h.stores.popViewIs,if_pos less] at agrees
    exact agreesRefused agrees
  · have agrees := RingBuffer.popViewRun h.admitted false n
    have most : ¬ entries.length < n.toNat := by
      rw [← word]
      exact Nat.not_lt.mpr (UInt64.le_iff_toNat_le.mp enough)
    rw [h.stores.popViewIs,if_neg most] at agrees
    exact agreesRefused agrees
  · have agrees := RingBuffer.popViewRun h.admitted true n
    have most : n.toNat ≤ entries.length := by rw [← word]; exact UInt64.le_iff_toNat_le.mp enough
    rw [h.stores.popViewIs,if_neg (Nat.not_lt.mpr most)] at agrees
    obtain ⟨array,after,run,made,moved,_⟩ := agreesOk agrees
    obtain ⟨times,popped,advanced⟩ := h.popTimesRun most
    cases exactInjective (moved.trans advanced.symm)
    have shape : array = if rb.head.toNat+n.toNat ≤ rb.capacity.toNat+1 then .view rb.head n
        else .copied (entries.take n.toNat) := by
      apply RingBuffer.arrayExactInjective
      rw [made]
      by_cases contiguous : rb.head.toNat+n.toNat ≤ rb.capacity.toNat+1
      · rw [if_pos contiguous]
        exact if_pos contiguous
      · rw [if_neg contiguous]
        exact if_neg contiguous
    have buf : after.buf = rb.buf := congrArg ExactRing.buf moved
    refine ⟨array,entries.take n.toNat,after,run,popped,?_,?_,shape⟩
    · rw [List.length_take]
      omega
    · rw [shape]
      split
      · rename_i contiguous
        rw [arrayValues,buf,← h.stores.front most]
        refine (CyclicIndex.windowContiguous ?_).symm
        exact contiguous.trans_eq h.stores.slots.symm
      · rfl

end Represents

theorem zeroUnsized {rb : RingBuffer} (zero : rb.capacity+1 = 0) : ¬ rb.PopViewPops := by
  rintro ⟨count,sized,_⟩
  rw [zeroSize zero] at sized
  contradiction

theorem popViewPopsExactly (std : StdVector) (capacity : SizeT) (rb : RingBuffer)
    (made : RingBuffer.construct std capacity = .ok rb) :
    (∀ ops s, Meets (step std) Op.Allowed ⟨rb,[]⟩ ops → exec (step std) ⟨rb,[]⟩ ops = some s →
      s.ring.PopViewPops) ↔ capacity.toNat ≠ 2^64-1 :=
  reachedExactly made (fun _ _ h => h.popViewPops) (fun _ => zeroUnsized)

theorem popViewPopsExactlyAtThree :
    (∀ ops s, Meets (step StdVector.small) Op.Allowed ⟨⟨3,[0,0,0,0],0,0⟩,[]⟩ ops →
      exec (step StdVector.small) ⟨⟨3,[0,0,0,0],0,0⟩,[]⟩ ops = some s → s.ring.PopViewPops) ↔
      (3 : SizeT).toNat ≠ 2^64-1 :=
  popViewPopsExactly StdVector.small 3 ⟨3,[0,0,0,0],0,0⟩ (by decide)

theorem largestCapacityPopView :
    RingBuffer.construct StdVector.small 18446744073709551615
        = .ok ⟨18446744073709551615,[],0,0⟩ ∧
      (RingBuffer.popView true 1).run ⟨18446744073709551615,[],0,0⟩
        = .error .divideByZero ⟨18446744073709551615,[],0,0⟩ ∧
      ¬ ∀ std capacity rb, RingBuffer.construct std capacity = .ok rb →
        ∀ ops s, Meets (step std) Op.Allowed ⟨rb,[]⟩ ops → exec (step std) ⟨rb,[]⟩ ops = some s →
          s.ring.PopViewPops := by
  refine ⟨by decide,rfl,?_⟩
  intro always
  exact zeroUnsized (by decide) (always StdVector.small 18446744073709551615
    ⟨18446744073709551615,[],0,0⟩ (by decide) [] ⟨⟨18446744073709551615,[],0,0⟩,[]⟩ trivial rfl)

example : (RingBuffer.popView true 3).run ⟨3,[7,0,5,6],2,1⟩
    = .ok (.copied [5,6,7]) ⟨3,[7,0,5,6],1,1⟩ := rfl

end FastReplay
