import FastReplay.ExactRing

/-! The 64-bit ring computes what the exact ring computes, as long as its slots
could be allocated. The intended wrap is that of t - h alone. -/
namespace FastReplay.RingBuffer

def exact (rb : RingBuffer) : ExactRing := ⟨rb.capacity.toNat,rb.buf,rb.head.toNat,rb.tail.toNat⟩

structure Admitted (rb : RingBuffer) : Prop where
  slots : rb.buf.length = rb.capacity.toNat + 1
  small : rb.capacity.toNat + 1 < 2^62
  head : rb.head.toNat < rb.capacity.toNat + 1
  tail : rb.tail.toNat < rb.capacity.toNat + 1

theorem constructed {std capacity rb} (made : construct std capacity = .ok rb) :
    rb = ⟨capacity,List.replicate (capacity+1).toNat 0,0,0⟩ ∧ (capacity+1).toNat ≤ std.maxInts := by
  unfold construct at made
  dsimp only at made
  split at made <;> try contradiction
  cases Except.ok.inj made
  exact ⟨rfl,by omega⟩

theorem constructAdmitted {std capacity rb} (made : construct std capacity = .ok rb)
    (noWrap : capacity.toNat + 1 < 2^64) :
    Admitted rb ∧ rb.exact = ExactRing.construct capacity.toNat := by
  obtain ⟨rfl,fits⟩ := constructed made
  have below := std.intsBelow
  have slots : (capacity+1).toNat = capacity.toNat+1 := by
    rw [UInt64.toNat_add,UInt64.toNat_one]
    omega
  refine ⟨?_,by simp [exact,ExactRing.construct,slots]⟩
  constructor <;> simp only [slots,List.length_replicate,UInt64.toNat_zero] <;> omega

variable {rb : RingBuffer}

theorem Admitted.modulus (ok : Admitted rb) : (rb.capacity+1).toNat = rb.capacity.toNat+1 := by
  have := ok.small
  rw [UInt64.toNat_add,UInt64.toNat_one]
  omega

theorem Admitted.modulusNonzero (ok : Admitted rb) : rb.capacity+1 ≠ 0 := by
  intro zero
  have modulus := ok.modulus
  rw [zero,UInt64.toNat_zero] at modulus
  omega

theorem Admitted.exactSize (ok : Admitted rb) :
    rb.exact.size = CyclicIndex.gap (rb.capacity.toNat+1) rb.head.toNat rb.tail.toNat :=
  ExactRing.sizeGap ok.head

theorem Admitted.sizeAtMost (ok : Admitted rb) : rb.exact.size ≤ rb.capacity.toNat := by
  have below := CyclicIndex.gapBelow (m := rb.capacity.toNat+1) (by omega) rb.head.toNat rb.tail.toNat
  rw [ok.exactSize]
  omega

theorem Admitted.reduced (ok : Admitted rb) {a : SizeT} :
    (a % (rb.capacity+1)).toNat = a.toNat % (rb.capacity.toNat+1) := by
  rw [UInt64.toNat_mod,ok.modulus]

theorem Admitted.advanced (ok : Admitted rb) {i n : SizeT}
    (here : i.toNat < rb.capacity.toNat+1) (step : n.toNat ≤ rb.capacity.toNat+1) :
    (i+n).toNat = i.toNat+n.toNat := by
  have := ok.small
  rw [UInt64.toNat_add]
  omega

theorem Admitted.next (ok : Admitted rb) {i : SizeT} (here : i.toNat < rb.capacity.toNat+1) :
    ((i+1) % (rb.capacity+1)).toNat = (i.toNat+1) % (rb.capacity.toNat+1) := by
  rw [ok.reduced,ok.advanced here (by rw [UInt64.toNat_one]; omega),UInt64.toNat_one]

/- t - h wraps when h is ahead of t; adding capacity + 1 wraps it back. -/
theorem Admitted.sizeWord (ok : Admitted rb) :
    ((rb.tail-rb.head+rb.capacity+1) % (rb.capacity+1)).toNat = rb.exact.size := by
  have small := ok.small
  have head := ok.head
  have tail := ok.tail
  rw [ok.reduced,ok.exactSize,CyclicIndex.gap]
  congr 1
  rw [UInt64.toNat_add,UInt64.toNat_add,UInt64.toNat_sub,UInt64.toNat_one]
  omega

@[simp] theorem runMap {α β : Type} (f : α → β) (x : Call α) (s : RingBuffer) :
    (f <$> x).run s = match x.run s with
      | .ok a s => .ok (f a) s
      | .error e s => .error e s := by
  rw [map_eq_pure_bind,EStateM.run_bind]
  cases x.run s <;> rfl

theorem moduloRun (ok : Admitted rb) (a : SizeT) :
    (modulo a (rb.capacity+1)).run rb = .ok (a % (rb.capacity+1)) rb := by
  simp [modulo,ok.modulusNonzero]

theorem writeSlotRun {i : SizeT} {v : CInt} (inside : i.toNat < rb.buf.length) :
    (writeSlot i v).run rb = .ok () { rb with buf := rb.buf.set i.toNat v } := by
  simp [writeSlot,inside]

theorem readSlotRun {i : SizeT} (inside : i.toNat < rb.buf.length) :
    (readSlot i).run rb = .ok (rb.buf.getD i.toNat 0) rb := by
  simp [readSlot,inside,List.getD]

theorem memcpyRun {start count : SizeT} (inside : start.toNat+count.toNat ≤ rb.buf.length)
    (small : count.toNat < 2^62) :
    (memcpy start count).run rb = .ok (rb.exact.memcpy start.toNat count.toNat) rb := by
  have bytes : (count*4).toNat/4 = count.toNat := by
    have four : (4 : SizeT).toNat = 4 := rfl
    rw [UInt64.toNat_mul,four]
    omega
  simp only [memcpy,EStateM.run_bind,EStateM.run_get,bytes,if_pos inside,EStateM.run_pure]
  rfl

theorem mapMRun {β γ : Type} {step : β → Call γ} {f : β → γ} {xs : List β}
    (each : ∀ x ∈ xs, (step x).run rb = .ok (f x) rb) :
    (xs.mapM step).run rb = .ok (xs.map f) rb := by
  induction xs with
  | nil => simp
  | cons x xs ih =>
    have rest := ih fun y mem => each y (List.mem_cons_of_mem _ mem)
    simp [List.mapM_cons,each x List.mem_cons_self,rest]

theorem advanceHeadRun (ok : Admitted rb) {n : SizeT} (step : n.toNat ≤ rb.capacity.toNat+1) :
    ∃ after, (advanceHead n).run rb = .ok () after ∧
      after.exact = rb.exact.advanceHead n.toNat ∧ Admitted after := by
  have word : ((rb.head+n) % (rb.capacity+1)).toNat
      = (rb.head.toNat+n.toNat) % (rb.capacity.toNat+1) := by rw [ok.reduced,ok.advanced ok.head step]
  refine ⟨{ rb with head := (rb.head+n) % (rb.capacity+1) },?_,?_,?_⟩
  · simp [advanceHead,moduloRun ok]
  · simp only [exact,ExactRing.advanceHead,word]
  · refine ⟨ok.slots,ok.small,?_,ok.tail⟩
    rw [word]
    exact Nat.mod_lt _ (by omega)

theorem pushRun (ok : Admitted rb) (v : CInt) :
    ∃ after, (push v).run rb = .ok (rb.exact.push v).1 after ∧
      after.exact = (rb.exact.push v).2 ∧ Admitted after := by
  have word := ok.next ok.tail
  have same : (rb.tail+1) % (rb.capacity+1) = rb.head ↔
      (rb.tail.toNat+1) % (rb.capacity.toNat+1) = rb.head.toNat := by
    rw [← UInt64.toNat_inj,word]
  unfold push ExactRing.push
  simp only [EStateM.run_bind,EStateM.run_get,moduloRun ok]
  by_cases full : (rb.tail+1) % (rb.capacity+1) = rb.head
  · have exactFull := same.mp full
    simp only [full,exact,exactFull,if_true]
    exact ⟨rb,rfl,rfl,ok⟩
  · have exactRoom := mt same.mpr full
    have inside : rb.tail.toNat < rb.buf.length := by rw [ok.slots]; exact ok.tail
    simp only [full,exact,exactRoom,if_false,EStateM.run_bind,writeSlotRun inside,EStateM.run_modify]
    refine ⟨_,rfl,by simp [word],?_⟩
    refine ⟨by simpa using ok.slots,ok.small,ok.head,?_⟩
    rw [word]
    exact Nat.mod_lt _ (by omega)

theorem popRun (ok : Admitted rb) (outVal : Option CInt) :
    ∃ after, (pop outVal).run rb = .ok (rb.exact.pop outVal).1 after ∧
      after.exact = (rb.exact.pop outVal).2 ∧ Admitted after := by
  have word := ok.next ok.head
  have same : rb.head = rb.tail ↔ rb.head.toNat = rb.tail.toNat := UInt64.toNat_inj.symm
  have inside : rb.head.toNat < rb.buf.length := by rw [ok.slots]; exact ok.head
  unfold pop ExactRing.pop
  simp only [EStateM.run_bind,EStateM.run_get]
  by_cases nothing : rb.head = rb.tail
  · rw [if_pos nothing,if_pos (show rb.exact.head = rb.exact.tail from same.mp nothing)]
    exact ⟨rb,rfl,rfl,ok⟩
  · rw [if_neg nothing,if_neg (show ¬ rb.exact.head = rb.exact.tail from mt same.mpr nothing)]
    have moved : Admitted { rb with head := (rb.head+1) % (rb.capacity+1) } := by
      refine ⟨ok.slots,ok.small,?_,ok.tail⟩
      rw [word]
      exact Nat.mod_lt _ (by omega)
    cases outVal with
    | none =>
      simp only [EStateM.run_bind,EStateM.run_pure,EStateM.run_get,moduloRun ok,EStateM.run_modify]
      exact ⟨_,rfl,by simp [exact,word],moved⟩
    | some old =>
      simp only [runMap,EStateM.run_bind,EStateM.run_pure,readSlotRun inside,EStateM.run_get,
        moduloRun ok,EStateM.run_modify]
      exact ⟨_,rfl,by simp [exact,word],moved⟩

theorem sizeRun (ok : Admitted rb) :
    ∃ n, size.run rb = .ok n rb ∧ n.toNat = rb.exact.size := by
  refine ⟨_,?_,ok.sizeWord⟩
  simp only [size,EStateM.run_bind,EStateM.run_get,moduloRun ok]

theorem emptyRun (rb : RingBuffer) : empty.run rb = .ok rb.exact.empty rb := by
  have same : rb.head = rb.tail ↔ rb.head.toNat = rb.tail.toNat := UInt64.toNat_inj.symm
  exact congrArg (EStateM.Result.ok · rb) (decide_eq_decide.mpr same)

/- A call on words against the same call on integers: equal results, equal
rings, equal exceptions. Undefined behaviour agrees with nothing. -/
def Agrees {α β : Type} (toExact : α → β) (result : EStateM.Result Fault RingBuffer α)
    (expected : Except Exception β × ExactRing) : Prop :=
  match result with
  | .ok a after => expected = (.ok (toExact a),after.exact) ∧ Admitted after
  | .error (.raised e) after => expected = (.error e,after.exact) ∧ Admitted after
  | .error _ _ => False

theorem sampleIndicesRun (ok : Admitted rb) (std : StdVector) (gen : Generator) (batchSize : SizeT) :
    Agrees (List.map UInt64.toNat) ((sampleIndices std gen batchSize).run rb)
      (rb.exact.sampleIndices std gen batchSize.toNat,rb.exact) := by
  have word := ok.sizeWord
  have most := ok.sizeAtMost
  unfold sampleIndices ExactRing.sampleIndices
  simp only [EStateM.run_bind,EStateM.run_get,moduloRun ok]
  generalize (rb.tail-rb.head+rb.capacity+1) % (rb.capacity+1) = n at word ⊢
  have zero : n = 0 ↔ rb.exact.size = 0 := by rw [← word,← UInt64.toNat_inj,UInt64.toNat_zero]
  by_cases nothing : n = 0
  · rw [if_pos nothing,if_pos (zero.mp nothing)]
    exact ⟨rfl,ok⟩
  rw [if_neg nothing,if_neg (mt zero.mpr nothing)]
  by_cases long : std.maxWords < batchSize.toNat
  · rw [if_pos long,if_pos long]
    exact ⟨rfl,ok⟩
  rw [if_neg long,if_neg long]
  have positive : 0 < rb.exact.size := Nat.pos_of_ne_zero (mt zero.mpr nothing)
  have last : (n-1).toNat = rb.exact.size-1 := by
    have := n.toNat_lt
    rw [UInt64.toNat_sub,UInt64.toNat_one,← word]
    omega
  have slot : ∀ i, ((rb.head+UInt64.ofNat (gen.draw (n-1).toNat i)) % (rb.capacity+1)).toNat
      = (rb.exact.head+gen.draw (rb.exact.size-1) i) % (rb.exact.capacity+1) := by
    intro i
    have inRange := gen.inRange (rb.exact.size-1) i
    have small := ok.small
    have offset : (UInt64.ofNat (gen.draw (n-1).toNat i)).toNat = gen.draw (rb.exact.size-1) i := by
      rw [last]
      exact UInt64.toNat_ofNat_of_lt (by rw [UInt64.size]; omega)
    rw [ok.reduced,ok.advanced ok.head (by omega),offset]
    rfl
  simp only [EStateM.run_bind,EStateM.run_get]
  rw [mapMRun fun i _ => moduloRun ok _]
  refine ⟨?_,ok⟩
  simp only [List.map_map,Function.comp_def,slot]

def arrayExact : PyArray SizeT → PyArray Nat
  | .view start count => .view start.toNat count.toNat
  | .copied values => .copied values

theorem chunksRun (ok : Admitted rb) {n : SizeT} (wraps : rb.capacity.toNat+1 < rb.head.toNat+n.toNat)
    (most : n.toNat ≤ rb.capacity.toNat) :
    let firstChunk := rb.capacity+1-rb.head
    let first := rb.exact.memcpy rb.head.toNat (rb.capacity.toNat+1-rb.head.toNat)
    let second := rb.exact.memcpy 0 (n.toNat-(rb.capacity.toNat+1-rb.head.toNat))
    (memcpy rb.head firstChunk).run rb = .ok first rb ∧
      (memcpy 0 (n-firstChunk)).run rb = .ok second rb ∧ first.length+second.length = n.toNat := by
  have head := ok.head
  have slots := ok.slots
  have small := ok.small
  have firstChunk : (rb.capacity+1-rb.head).toNat = rb.capacity.toNat+1-rb.head.toNat := by
    rw [UInt64.toNat_sub,ok.modulus]
    omega
  have secondChunk : (n-(rb.capacity+1-rb.head)).toNat
      = n.toNat-(rb.capacity.toNat+1-rb.head.toNat) := by
    rw [UInt64.toNat_sub,firstChunk]
    omega
  refine ⟨?_,?_,?_⟩
  · rw [memcpyRun (by rw [firstChunk]; omega) (by rw [firstChunk]; omega),firstChunk]
  · rw [memcpyRun (by rw [secondChunk,UInt64.toNat_zero]; omega) (by rw [secondChunk]; omega),
      secondChunk]
    rfl
  · simp only [ExactRing.memcpy,exact,List.length_take,List.length_drop,slots]
    omega

theorem popViewRun (ok : Admitted rb) (built : Bool) (n : SizeT) :
    Agrees arrayExact ((popView built n).run rb) (rb.exact.popView built n.toNat) := by
  obtain ⟨count,sized,word⟩ := sizeRun ok
  have most := ok.sizeAtMost
  have head := ok.head
  have slots := ok.slots
  unfold popView ExactRing.popView
  simp only [EStateM.run_bind,sized]
  by_cases short : count < n
  · have exactShort : rb.exact.size < n.toNat := by rw [← word]; exact UInt64.lt_iff_toNat_lt.mp short
    rw [if_pos short,if_pos exactShort]
    exact ⟨rfl,ok⟩
  have enough : n.toNat ≤ rb.exact.size := by
    rw [← word]
    exact Nat.not_lt.mp (mt UInt64.lt_iff_toNat_lt.mpr short)
  rw [if_neg short,if_neg (Nat.not_lt.mpr enough)]
  have stop : (rb.head+n).toNat = rb.head.toNat+n.toNat := ok.advanced head (by omega)
  have within : rb.head+n ≤ rb.capacity+1 ↔ rb.exact.head+n.toNat ≤ rb.exact.capacity+1 := by
    rw [UInt64.le_iff_toNat_le,stop,ok.modulus]
    rfl
  cases built with
  | false =>
    simp only [Bool.not_false,if_true,EStateM.run_bind,EStateM.run_get]
    split <;> exact ⟨rfl,ok⟩
  | true =>
    obtain ⟨after,advanced,exactAfter,admitted⟩ := advanceHeadRun ok (n := n) (by omega)
    simp only [Bool.not_true,Bool.false_eq_true,if_false,EStateM.run_bind,EStateM.run_get]
    by_cases contiguous : rb.head+n ≤ rb.capacity+1
    · have inside : rb.head.toNat+n.toNat ≤ rb.buf.length := by
        rw [slots]
        exact within.mp contiguous
      simp only [if_pos contiguous,if_pos (within.mp contiguous),EStateM.run_get,if_pos inside,
        EStateM.run_bind,advanced,EStateM.run_pure]
      exact ⟨by rw [exactAfter]; rfl,admitted⟩
    · have wraps : rb.capacity.toNat+1 < rb.head.toNat+n.toNat :=
        Nat.not_le.mp (mt within.mpr contiguous)
      obtain ⟨first,second,filled⟩ := chunksRun ok wraps (by omega)
      rw [if_neg contiguous,if_neg (mt within.mpr contiguous)]
      simp only [EStateM.run_bind,first,second,if_pos filled,advanced,EStateM.run_pure]
      exact ⟨by rw [exactAfter]; rfl,admitted⟩

end FastReplay.RingBuffer
