import FastReplay.RingQueue

/-! The calls a Python program can make, on every 64-bit capacity the
constructor lets through. One of them, 2^64 - 1, has a zero modulus. -/
namespace FastReplay
open GuardedRun

/- advance_head has no binding of its own. -/
def Op.bound : Op → Bool
  | .advanceHead _ => false
  | _ => true

def Value.Within (slots : Nat) : Value Nat → Prop
  | .indices is => ∀ i ∈ is, i < slots
  | .array (.view first n) => first+n ≤ slots
  | _ => True

/- No call sequence meets undefined behaviour, and every result and every stored
index is the one exact integers give. -/
def Safe (std : StdVector) (rb : RingBuffer) : Prop :=
  ∀ ops : List Op, (∀ op ∈ ops, op.bound = true) →
    ∃ s e, exec (step std) ⟨rb,[]⟩ ops = some s ∧
      exec (exactStep std) ⟨ExactRing.construct rb.capacity.toNat,[]⟩ ops = some e ∧
      s.results.map (Except.map valueExact) = e.results ∧ s.ring.exact = e.ring ∧
      s.ring.capacity+1 ≠ 0 ∧ s.ring.head.toNat < s.ring.buf.length ∧
      s.ring.tail.toNat < s.ring.buf.length ∧
      ∀ value, .ok value ∈ s.results → (valueExact value).Within s.ring.buf.length

theorem boundAllowed {op : Op} (bound : op.bound = true) (s : Session RingBuffer SizeT) :
    op.Allowed s := by
  cases op with
  | advanceHead n => simp [Op.bound] at bound
  | _ => trivial

theorem popViewWithin {r : ExactRing} {built n a} (made : (r.popView built n).1 = .ok a) :
    (Value.array a).Within (r.capacity+1) := by
  unfold ExactRing.popView at made
  split at made <;> try contradiction
  split at made <;> try contradiction
  split at made
  · cases Except.ok.inj made
    assumption
  · cases Except.ok.inj made
    trivial

theorem sampledWithin {r : ExactRing} {std gen batchSize is}
    (drawn : r.sampleIndices std gen batchSize = .ok is) : ∀ i ∈ is, i < r.capacity+1 := by
  unfold ExactRing.sampleIndices at drawn
  split at drawn <;> try contradiction
  split at drawn <;> try contradiction
  cases Except.ok.inj drawn
  intro i mem
  obtain ⟨j,_,rfl⟩ := List.mem_map.mp mem
  exact Nat.mod_lt _ (by omega)

theorem exactWithin {std r value} {op : Op} (result : (op.exact std r).1 = .ok value) :
    value.Within (r.capacity+1) := by
  cases op with
  | sampleIndices gen batchSize =>
    simp only [Op.exact] at result
    cases drawn : r.sampleIndices std gen batchSize.toNat with
    | error e => simp [drawn,Except.map] at result
    | ok is =>
      simp only [drawn,Except.map,Except.ok.injEq] at result
      subst value
      exact sampledWithin drawn
  | popView built n =>
    simp only [Op.exact] at result
    cases made : (r.popView built n.toNat).1 with
    | error e => simp [made,Except.map] at result
    | ok a =>
      simp only [made,Except.map,Except.ok.injEq] at result
      subst value
      exact popViewWithin made
  | push v => cases Except.ok.inj result; trivial
  | pop outVal => cases Except.ok.inj result; trivial
  | advanceHead n => cases Except.ok.inj result; trivial
  | size => cases Except.ok.inj result; trivial
  | empty => cases Except.ok.inj result; trivial

theorem exactCapacity (std : StdVector) (r : ExactRing) (op : Op) :
    (op.exact std r).2.capacity = r.capacity := by
  cases op with
  | push v => exact r.pushCapacity v
  | pop outVal => exact r.popCapacity outVal
  | popView built n =>
    simp only [Op.exact,ExactRing.popView]
    split
    · rfl
    · split
      · rfl
      · split <;> rfl
  | advanceHead n => rfl
  | size => rfl
  | empty => rfl
  | sampleIndices gen batchSize => rfl

structure Bounded (slots : Nat) (s : Session RingBuffer SizeT) (e : Session ExactRing Nat) : Prop where
  matched : Matches s e
  sized : e.ring.capacity+1 = slots
  within : ∀ value, .ok value ∈ e.results → value.Within slots

theorem stepBounded (std : StdVector) {slots s e op} (same : Bounded slots s e)
    (bound : op.bound = true) :
    ∃ s' e', step std s op = some s' ∧ exactStep std e op = some e' ∧ Bounded slots s' e' := by
  obtain ⟨s',e',moved,exactMoved,matched⟩ := stepMatches std same.matched (boundAllowed bound s)
  refine ⟨s',e',moved,exactMoved,matched,?_,?_⟩
  · cases Option.some.inj exactMoved
    exact (congrArg (· + 1) (exactCapacity std e.ring op)).trans same.sized
  · cases Option.some.inj exactMoved
    intro value mem
    rcases List.mem_append.mp mem with old | new
    · exact same.within value old
    · rw [← same.sized]
      exact exactWithin (List.mem_singleton.mp new).symm

theorem constructSafe {std capacity rb} (made : RingBuffer.construct std capacity = .ok rb)
    (noWrap : capacity.toNat+1 < 2^64) : Safe std rb := by
  intro ops bound
  obtain ⟨admitted,exactRing⟩ := RingBuffer.constructAdmitted made noWrap
  have fresh := congrArg RingBuffer.capacity (RingBuffer.constructed made).1
  dsimp only at fresh
  have start : Bounded (capacity.toNat+1) ⟨rb,[]⟩ ⟨ExactRing.construct capacity.toNat,[]⟩ :=
    ⟨⟨admitted,exactRing,rfl⟩,rfl,by simp⟩
  obtain ⟨s,e,run,exactRun,final⟩ := simulated (fun _ _ _ => stepBounded std) start
    (meetsAlways (fun op mem _ => bound op mem) _)
  have ok := final.matched.admitted
  have length : s.ring.buf.length = capacity.toNat+1 := by
    have slots := final.sized
    rw [← final.matched.ring] at slots
    exact ok.slots.trans slots
  refine ⟨s,e,run,by rw [fresh]; exact exactRun,final.matched.results,final.matched.ring,
    ok.modulusNonzero,by rw [ok.slots]; exact ok.head,by rw [ok.slots]; exact ok.tail,?_⟩
  intro value mem
  rw [length]
  apply final.within
  rw [← final.matched.results]
  exact List.mem_map.mpr ⟨_,mem,rfl⟩

theorem zeroSlots {capacity : SizeT} (wrapped : ¬ capacity.toNat+1 < 2^64) : capacity+1 = 0 := by
  have below := capacity.toNat_lt
  rw [← UInt64.toNat_inj,UInt64.toNat_add,UInt64.toNat_one,UInt64.toNat_zero]
  omega

theorem zeroModulo {rb : RingBuffer} (zero : rb.capacity+1 = 0) (a : SizeT) :
    (RingBuffer.modulo a (rb.capacity+1)).run rb = .error .divideByZero rb := by
  rw [RingBuffer.modulo,if_pos zero]
  rfl

theorem zeroModulus {std capacity rb} (made : RingBuffer.construct std capacity = .ok rb)
    (wrapped : ¬ capacity.toNat+1 < 2^64) (v : CInt) :
    rb.buf = [] ∧ (RingBuffer.push v).run rb = .error .divideByZero rb := by
  have none := zeroSlots wrapped
  have fresh := (RingBuffer.constructed made).1
  have zero : rb.capacity+1 = 0 := by
    rw [fresh]
    exact none
  constructor
  · rw [fresh]
    simp [none]
  · simp only [RingBuffer.push,EStateM.run_bind,EStateM.run_get,zeroModulo zero]

theorem safeExactly (std : StdVector) (capacity : SizeT) (rb : RingBuffer)
    (made : RingBuffer.construct std capacity = .ok rb) :
    Safe std rb ↔ capacity.toNat ≠ 2^64-1 := by
  have below := capacity.toNat_lt
  constructor
  · intro safe wrapped
    obtain ⟨_,fault⟩ := zeroModulus made (by omega) 0
    obtain ⟨s,_,run,_⟩ := safe [.push 0] (by simp [Op.bound])
    obtain ⟨next,first,_⟩ := execCons.mp run
    simp [step,Op.call,fault] at first
  · intro noWrap
    exact constructSafe made (by omega)

theorem safeExactlyAtThree :
    Safe StdVector.small ⟨3,[0,0,0,0],0,0⟩ ↔ (3 : SizeT).toNat ≠ 2^64-1 :=
  safeExactly StdVector.small 3 ⟨3,[0,0,0,0],0,0⟩ (by decide)

theorem largestCapacityDividesByZero :
    RingBuffer.construct StdVector.small 18446744073709551615
        = .ok ⟨18446744073709551615,[],0,0⟩ ∧
      step StdVector.small ⟨⟨18446744073709551615,[],0,0⟩,[]⟩ (.push 7) = none ∧
      ¬ ∀ std capacity rb, RingBuffer.construct std capacity = .ok rb → Safe std rb := by
  have stuck : step StdVector.small ⟨⟨18446744073709551615,[],0,0⟩,[]⟩ (.push 7) = none := rfl
  refine ⟨by decide,stuck,?_⟩
  intro safe
  obtain ⟨s,_,run,_⟩ := safe StdVector.small 18446744073709551615
    ⟨18446744073709551615,[],0,0⟩ (by decide) [.push 7] (by simp [Op.bound])
  obtain ⟨next,first,_⟩ := execCons.mp run
  rw [stuck] at first
  contradiction

end FastReplay
