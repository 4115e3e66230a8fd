import FastReplay.ViewLifetime

/-! advance_head as the header declares it, for any caller: no comparison with size()
stands before it, and what was popped or never pushed comes back into the queue. -/
namespace FastReplay
open GuardedRun
open RingBuffer (Admitted)

structure Remembers (rb : RingBuffer) (written : List CInt) : Prop where
  admitted : Admitted rb
  lap : rb.capacity.toNat+1 ≤ written.length
  holds : CyclicIndex.Holds rb.buf rb.tail.toNat
    (written.drop (written.length-(rb.capacity.toNat+1)))

theorem admittedRepresents {rb : RingBuffer} (ok : Admitted rb) : Represents rb rb.held := by
  have slots := ok.slots
  have most := ok.sizeAtMost
  have head := ok.head
  have tail := ok.tail
  have length : rb.held.length = rb.exact.size :=
    CyclicIndex.windowLength (show rb.exact.size ≤ rb.buf.length by omega)
  have reached := CyclicIndex.gapReaches (m := rb.capacity.toNat+1) (h := rb.head.toNat)
    (t := rb.tail.toNat) (by omega)
  rw [← ok.exactSize,← length,Nat.mod_eq_of_lt tail] at reached
  refine ⟨ok,slots,head,reached.symm,?_,CyclicIndex.windowHolds _ _ _ ?_⟩
  · rw [length]
    exact most
  · exact (most.trans (Nat.le_succ _)).trans_eq slots.symm

namespace Remembers
variable {std : StdVector} {rb : RingBuffer} {written : List CInt} {s : Session RingBuffer SizeT}
  {op : Op}

theorem heldSuffix (h : Remembers rb written) : rb.held <:+ written := by
  have slots := h.admitted.slots
  have lap := h.lap
  have head := h.admitted.head
  have stores := (admittedRepresents h.admitted).stores
  have fits : rb.held.length ≤ rb.capacity.toNat := stores.fits
  have ahead : rb.tail.toNat = (rb.head.toNat+rb.held.length) % (rb.capacity.toNat+1) := stores.tail
  have start : (rb.tail.toNat+(rb.capacity.toNat+1-rb.held.length)) % (rb.capacity.toNat+1)
      = rb.head.toNat := by
    have shift : rb.head.toNat+rb.held.length+(rb.capacity.toNat+1-rb.held.length)
        = rb.head.toNat+(rb.capacity.toNat+1) := by omega
    rw [ahead,Nat.mod_add_mod,shift,Nat.add_mod_right,Nat.mod_eq_of_lt head]
  have last := CyclicIndex.holdsDrop (n := rb.capacity.toNat+1-rb.held.length) h.holds
  rw [slots,start,List.drop_drop] at last
  have length : (written.drop (written.length-(rb.capacity.toNat+1)+
      (rb.capacity.toNat+1-rb.held.length))).length = rb.held.length := by
    rw [List.length_drop]
    omega
  have read := CyclicIndex.holdsWindow last (by omega)
  rw [length,← stores.size] at read
  have same : rb.held = _ := read
  rw [same]
  exact List.drop_suffix _ _

theorem made {capacity : SizeT} (construct : RingBuffer.construct std capacity = .ok rb)
    (noWrap : capacity.toNat+1 < 2^64) : Remembers rb (List.replicate (capacity.toNat+1) 0) := by
  obtain ⟨admitted,_⟩ := RingBuffer.constructAdmitted construct noWrap
  obtain ⟨rfl,_⟩ := RingBuffer.constructed construct
  have slots : (capacity+1).toNat = capacity.toNat+1 := admitted.modulus
  refine ⟨admitted,by simp,?_⟩
  intro i small
  simp only [List.length_replicate,Nat.sub_self,List.drop_zero] at small
  have inside : i % (capacity.toNat+1) = i := Nat.mod_eq_of_lt small
  simp [slots,inside,small]

theorem advance (h : Remembers s.ring written) (std : StdVector) (n : SizeT) :
    ∃ t, step std s (.advanceHead n) = some t ∧ t.results = s.results ++ [.ok .done] ∧
      t.ring.capacity = s.ring.capacity ∧ Remembers t.ring written ∧
      t.ring.tail = s.ring.tail ∧
      t.ring.head.toNat = (s.ring.head+n).toNat % (s.ring.capacity.toNat+1) := by
  have ok := h.admitted
  have word : ((s.ring.head+n) % (s.ring.capacity+1)).toNat
      = (s.ring.head+n).toNat % (s.ring.capacity.toNat+1) := ok.reduced
  have run : (RingBuffer.advanceHead n).run s.ring
      = .ok () { s.ring with head := (s.ring.head+n) % (s.ring.capacity+1) } := by
    simp [RingBuffer.advanceHead,RingBuffer.moduloRun ok]
  refine ⟨⟨{ s.ring with head := (s.ring.head+n) % (s.ring.capacity+1) },s.results ++ [.ok .done]⟩,
    by simp only [step,Op.call,RingBuffer.runMap,run],rfl,rfl,
    ⟨⟨ok.slots,ok.small,?_,ok.tail⟩,h.lap,h.holds⟩,rfl,word⟩
  rw [word]
  exact Nat.mod_lt _ (Nat.succ_pos _)

theorem accepts (h : Remembers s.ring written) {t : Session RingBuffer SizeT} {v : CInt}
    (admitted : Admitted t.ring) (capacity : t.ring.capacity = s.ring.capacity)
    (buf : t.ring.buf = s.ring.buf.set s.ring.tail.toNat v)
    (tail : t.ring.tail.toNat = (s.ring.tail.toNat+1) % (s.ring.capacity.toNat+1)) :
    Remembers t.ring (written ++ [v]) := by
  have slots := h.admitted.slots
  have lap := h.lap
  have inside := h.admitted.tail
  have round := CyclicIndex.holdsRound (v := v) h.holds (by omega) (by rw [List.length_drop]; omega)
  have short : written.length-(s.ring.capacity.toNat+1)+1 ≤ written.length := by omega
  rw [slots,← tail,← buf,List.drop_drop,← List.drop_append_of_le_length short] at round
  have start : (written ++ [v]).length-(t.ring.capacity.toNat+1)
      = written.length-(s.ring.capacity.toNat+1)+1 := by
    rw [List.length_append,List.length_singleton,capacity]
    omega
  refine ⟨admitted,?_,?_⟩
  · rw [List.length_append,capacity]
    omega
  · rwa [start]

theorem call (h : Remembers s.ring written) (std : StdVector) (op : Op) :
    ∃ t result, step std s op = some t ∧ t.results = s.results ++ [result] ∧
      t.ring.capacity = s.ring.capacity ∧ Remembers t.ring (written ++ (op.accepted result).toList) := by
  by_cases allowed : op.Allowed s
  · have represents := admittedRepresents h.admitted
    obtain ⟨t,result,moved,appended,same,exactRing,admitted⟩ := represents.callExact allowed
    have capacity := exactCapacity std s.ring.exact op
    have writes := exactWrites std s.ring.exact op
    rw [← exactRing] at capacity
    rw [← same,acceptedExact,← exactRing] at writes
    have kept := sameCapacity capacity
    refine ⟨t,result,moved,appended,kept,?_⟩
    cases answer : op.accepted result with
    | none =>
      rw [answer] at writes
      obtain ⟨buf,tail⟩ : t.ring.buf = s.ring.buf ∧ t.ring.tail.toNat = s.ring.tail.toNat := writes
      rw [Option.toList_none,List.append_nil]
      refine ⟨admitted,?_,?_⟩
      · rw [kept]
        exact h.lap
      · rw [buf,tail,kept]
        exact h.holds
    | some v =>
      rw [answer] at writes
      exact h.accepts admitted kept writes.1 writes.2
  · cases op with
    | advanceHead n =>
      obtain ⟨t,moved,appended,capacity,remembers,_⟩ := h.advance std n
      refine ⟨t,_,moved,appended,capacity,?_⟩
      simpa [Op.accepted] using remembers
    | _ => exact absurd trivial allowed

theorem calls (h : Remembers s.ring written) (std : StdVector) (ops : List Op) :
    ∃ t results, exec (step std) s ops = some t ∧ t.results = s.results ++ results ∧
      t.ring.capacity = s.ring.capacity ∧ Remembers t.ring (written ++ acceptedPushes ops results) := by
  induction ops generalizing s written with
  | nil => exact ⟨s,[],rfl,(List.append_nil _).symm,rfl,by simpa [acceptedPushes] using h⟩
  | cons op ops ih =>
    obtain ⟨next,result,first,appended,same,kept⟩ := h.call std op
    obtain ⟨t,results,run,rest,capacity,final⟩ := ih kept
    refine ⟨t,result::results,execCons.mpr ⟨next,first,run⟩,?_,capacity.trans same,?_⟩
    · rw [rest,appended,List.append_assoc,List.singleton_append]
    · have joined : acceptedPushes (op::ops) (result::results)
          = (op.accepted result).toList ++ acceptedPushes ops results := by
        unfold acceptedPushes
        cases answer : op.accepted result <;> simp [answer]
      rwa [joined,← List.append_assoc]

end Remembers

theorem unguardedHead (std : StdVector) (capacity : SizeT) (rb : RingBuffer)
    (made : RingBuffer.construct std capacity = .ok rb) (noWrap : capacity.toNat+1 < 2^64)
    (ops : List Op) : ∃ s, exec (step std) ⟨rb,[]⟩ ops = some s ∧
      s.ring.buf.length = capacity.toNat+1 ∧ s.ring.head.toNat < capacity.toNat+1 ∧
      s.ring.tail.toNat < capacity.toNat+1 ∧ s.ring.held.length ≤ capacity.toNat ∧
      s.ring.held <:+ List.replicate (capacity.toNat+1) 0 ++ acceptedPushes ops s.results ∧
      ∀ n : SizeT, s.ring.head.toNat+n.toNat < 2^64 →
        ∃ t, step std s (.advanceHead n) = some t ∧
          t.ring.held <:+ List.replicate (capacity.toNat+1) 0 ++ acceptedPushes ops s.results ∧
          (t.ring.held.length+n.toNat) % (capacity.toNat+1)
            = s.ring.held.length % (capacity.toNat+1) := by
  have fresh := congrArg RingBuffer.capacity (RingBuffer.constructed made).1
  obtain ⟨s,results,run,same,kept,h⟩ := (Remembers.made made noWrap).calls (s := ⟨rb,[]⟩) std ops
  rw [List.nil_append] at same
  subst same
  obtain rfl : s.ring.capacity = capacity := kept.trans fresh
  have ok := h.admitted
  have stores := (admittedRepresents ok).stores
  refine ⟨s,run,ok.slots,ok.head,ok.tail,stores.fits,h.heldSuffix,fun n small => ?_⟩
  obtain ⟨t,moved,_,capacity,remembers,tail,head⟩ := h.advance std n
  refine ⟨t,moved,remembers.heldSuffix,?_⟩
  have ahead : s.ring.tail.toNat
      = (s.ring.head.toNat+s.ring.held.length) % (s.ring.capacity.toNat+1) := stores.tail
  have aheadToo : t.ring.tail.toNat
      = (t.ring.head.toNat+t.ring.held.length) % (t.ring.capacity.toNat+1) :=
    (admittedRepresents remembers.admitted).stores.tail
  have sum : (s.ring.head+n).toNat = s.ring.head.toNat+n.toNat := by
    rw [UInt64.toNat_add]
    exact Nat.mod_eq_of_lt small
  rw [tail,capacity,head,sum,Nat.mod_add_mod,ahead,Nat.add_assoc] at aheadToo
  have left : n.toNat+t.ring.held.length ≡ s.ring.held.length [MOD s.ring.capacity.toNat+1] :=
    Nat.ModEq.add_left_cancel' _ aheadToo.symm
  rw [Nat.add_comm]
  exact left

theorem unguardedHeadAtTwo : ∃ s, exec (step StdVector.small) ⟨⟨2,[0,0,0],0,0⟩,[]⟩
    [.push 5,.pop (some 0),.advanceHead 1] = some s ∧ s.ring.held = [0,5] ∧
    s.ring.held <:+ List.replicate 3 0 ++ [5] := by
  obtain ⟨s,run,_,_,_,_,suffix,_⟩ := unguardedHead StdVector.small 2 ⟨2,[0,0,0],0,0⟩ (by decide)
    (by decide) [.push 5,.pop (some 0),.advanceHead 1]
  cases Option.some.inj run
  exact ⟨_,rfl,by decide,suffix⟩

end FastReplay
