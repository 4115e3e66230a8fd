import Mathlib.Logic.Function.Iterate
import FastReplay.RingSession

/-! The ring against a bounded queue: what every first-in first-out call returns
and stores, at every head and tail position. -/
namespace FastReplay
open GuardedRun
open RingBuffer (Admitted)

structure Represents (rb : RingBuffer) (entries : List CInt) : Prop where
  admitted : Admitted rb
  stores : rb.exact.Stores entries

theorem exactInjective {a b : RingBuffer} (same : a.exact = b.exact) : a = b := by
  obtain ⟨capacity,buf,head,tail⟩ := a
  obtain ⟨capacity',buf',head',tail'⟩ := b
  simp only [RingBuffer.exact,ExactRing.mk.injEq,UInt64.toNat_inj] at same
  obtain ⟨rfl,rfl,rfl,rfl⟩ := same
  rfl

section
variable {α β : Type} {f : α → β} {result : EStateM.Result Fault RingBuffer α}
open RingBuffer (Agrees)

theorem agreesOk {b : β} {r : ExactRing} (agrees : Agrees f result (.ok b,r)) :
    ∃ a after, result = .ok a after ∧ f a = b ∧ after.exact = r ∧ Admitted after := by
  unfold Agrees at agrees
  split at agrees
  · rename_i a after
    cases agrees.1
    exact ⟨a,after,rfl,rfl,rfl,agrees.2⟩
  · cases (Prod.mk.inj agrees.1).1
  · contradiction

theorem agreesRefused {rb : RingBuffer} {e : Exception}
    (agrees : Agrees f result (.error e,rb.exact)) : result = .error (.raised e) rb := by
  unfold Agrees at agrees
  split at agrees
  · cases (Prod.mk.inj agrees.1).1
  · obtain ⟨same,_⟩ := agrees
    cases (Prod.mk.inj same).1
    rw [exactInjective (Prod.mk.inj same).2]
  · contradiction

end

theorem sameCapacity {a b : RingBuffer} (same : a.exact.capacity = b.exact.capacity) :
    a.capacity = b.capacity := UInt64.toNat_inj.mp same

namespace ExactRing
variable {r : ExactRing} {entries : List CInt}

theorem Stores.popTimes (h : Stores r entries) {n : Nat} (enough : n ≤ entries.length) :
    (fun r : ExactRing => (r.pop none).2)^[n] r = r.advanceHead n := by
  induction n generalizing r entries with
  | zero => simp [ExactRing.advanceHead,Nat.mod_eq_of_lt h.head]
  | succ n ih =>
    have some : r.head ≠ r.tail := fun same => by
      have := h.emptyIff.mp same
      simp [this] at enough
    have dropped := h.advanceHead (n := 1) (by omega)
    rw [Function.iterate_succ_apply,popAdvance some,ih dropped (by rw [List.length_drop]; omega),
      advanceTwice]

end ExactRing

def Op.fifo : Op → Bool
  | .push _ | .pop _ | .advanceHead _ | .size | .empty => true
  | .sampleIndices _ _ | .popView _ _ => false

def Op.queue (cap : Nat) (entries : List CInt) : Op → Option (Value Nat × List CInt)
  | .push value =>
    some (.flag (BoundedQueue.offer cap entries value).1,(BoundedQueue.offer cap entries value).2)
  | .pop outVal =>
    some (.popped (ExactRing.popped entries outVal).1 (ExactRing.popped entries outVal).2,
      (BoundedQueue.poll entries).2)
  | .advanceHead n => some (.done,entries.drop n.toNat)
  | .size => some (.count entries.length,entries)
  | .empty => some (.flag entries.isEmpty,entries)
  | .sampleIndices _ _ | .popView _ _ => none

def queueStep (cap : Nat) (q : Session (List CInt) Nat) (op : Op) :
    Option (Session (List CInt) Nat) := do
  let (value,entries) ← op.queue cap q.ring
  some ⟨entries,q.results ++ [.ok value]⟩

theorem exactRefinesQueue {r : ExactRing} {entries : List CInt} (h : r.Stores entries) (std : StdVector)
    {op : Op} (fifo : op.fifo = true)
    (enough : ∀ n, op = .advanceHead n → n.toNat ≤ entries.length) :
    ∃ value rest, op.queue r.capacity entries = some (value,rest) ∧
      (op.exact std r).1 = .ok value ∧ (op.exact std r).2.Stores rest ∧
      (op.exact std r).2.capacity = r.capacity := by
  cases op with
  | push value =>
    have pushed := h.push value
    exact ⟨_,_,rfl,by simp only [Op.exact,pushed.1],pushed.2,r.pushCapacity value⟩
  | pop outVal =>
    have popped := h.pop outVal
    exact ⟨_,_,rfl,by simp only [Op.exact,popped.1],popped.2,r.popCapacity outVal⟩
  | advanceHead n => exact ⟨_,_,rfl,rfl,h.advanceHead (enough n rfl),rfl⟩
  | size => exact ⟨_,_,rfl,by simp only [Op.exact,h.size],h,rfl⟩
  | empty =>
    have same : r.empty = entries.isEmpty := by
      rw [Bool.eq_iff_iff]
      simp [ExactRing.empty,h.emptyIff]
    exact ⟨_,_,rfl,by simp only [Op.exact,same],h,rfl⟩
  | sampleIndices gen batchSize => simp [Op.fifo] at fifo
  | popView built n => simp [Op.fifo] at fifo

structure Refines (capacity : SizeT) (s : Session RingBuffer SizeT) (q : Session (List CInt) Nat) :
    Prop where
  capacity : s.ring.capacity = capacity
  ring : Represents s.ring q.ring
  results : s.results.map (Except.map valueExact) = q.results

def FifoCall (s : Session RingBuffer SizeT) (op : Op) : Prop := op.fifo = true ∧ op.Allowed s

theorem allowedCount {s : Session RingBuffer SizeT} {entries : List CInt} {n : SizeT}
    (ring : Represents s.ring entries) (allowed : (Op.advanceHead n).Allowed s) :
    n.toNat ≤ entries.length := by
  obtain ⟨count,sized,word⟩ := RingBuffer.sizeRun ring.admitted
  have within := UInt64.le_iff_toNat_le.mp (allowed count _ sized)
  rwa [word,ring.stores.size] at within

theorem stepRefines {std capacity s q op} (same : Refines capacity s q) (call : FifoCall s op) :
    ∃ s' q', step std s op = some s' ∧ queueStep capacity.toNat q op = some q' ∧
      Refines capacity s' q' := by
  have exactCapacity : s.ring.exact.capacity = capacity.toNat := congrArg UInt64.toNat same.capacity
  obtain ⟨s',e',moved,exactMoved,matched⟩ := stepMatches std
    (e := ⟨s.ring.exact,q.results⟩) ⟨same.ring.admitted,rfl,same.results⟩ call.2
  obtain ⟨value,rest,answer,result,stores,kept⟩ := exactRefinesQueue same.ring.stores std call.1
    (by rintro n rfl; exact allowedCount same.ring call.2)
  rw [exactCapacity] at answer
  cases Option.some.inj exactMoved
  refine ⟨s',⟨rest,q.results ++ [.ok value]⟩,moved,by simp [queueStep,answer],?_,?_,?_⟩
  · rw [← same.capacity]
    apply sameCapacity
    rw [matched.ring]
    exact kept
  · refine ⟨matched.admitted,?_⟩
    rw [matched.ring]
    exact stores
  · rw [matched.results,result]

theorem constructRefines {std capacity rb} (made : RingBuffer.construct std capacity = .ok rb)
    (noWrap : capacity.toNat+1 < 2^64) : Refines capacity ⟨rb,[]⟩ ⟨[],[]⟩ := by
  obtain ⟨admitted,exactRing⟩ := RingBuffer.constructAdmitted made noWrap
  have stores := ExactRing.constructStores capacity.toNat
  rw [← exactRing] at stores
  have fresh := congrArg RingBuffer.capacity (RingBuffer.constructed made).1
  exact ⟨fresh,⟨admitted,stores⟩,rfl⟩

structure Layout (capacity : SizeT) (rb : RingBuffer) (entries : List CInt) : Prop where
  made : rb.capacity = capacity
  slots : rb.buf.length = capacity.toNat+1
  head : rb.head.toNat < capacity.toNat+1
  tail : rb.tail.toNat < capacity.toNat+1
  fits : entries.length ≤ capacity.toNat
  stop : (rb.head.toNat+entries.length) % (capacity.toNat+1) = rb.tail.toNat
  live : ∀ i, i < entries.length →
    rb.buf[(rb.head.toNat+i) % (capacity.toNat+1)]? = entries[i]?

theorem Represents.layout {rb entries} (h : Represents rb entries) : Layout rb.capacity rb entries where
  made := rfl
  slots := h.admitted.slots
  head := h.admitted.head
  tail := h.admitted.tail
  fits := h.stores.fits
  stop := h.stores.tail.symm
  live := by
    have live := h.stores.live
    unfold CyclicIndex.Holds at live
    rwa [h.stores.slots] at live

theorem refusedPush {rb entries} (h : Represents rb entries)
    (full : entries.length = rb.capacity.toNat) (v : CInt) :
    (RingBuffer.push v).run rb = .ok false rb := by
  obtain ⟨after,run,exactAfter,_⟩ := RingBuffer.pushRun h.admitted v
  have refused : rb.exact.push v = (false,rb.exact) := by
    simp [ExactRing.push,h.stores.fullIff.mpr full]
  rw [refused] at run exactAfter
  rw [run,exactInjective exactAfter]

theorem refusedPop {rb entries} (h : Represents rb entries) (empty : entries = [])
    (outVal : Option CInt) : (RingBuffer.pop outVal).run rb = .ok (false,outVal) rb := by
  obtain ⟨after,run,exactAfter,_⟩ := RingBuffer.popRun h.admitted outVal
  have refused : rb.exact.pop outVal = ((false,outVal),rb.exact) := by
    simp [ExactRing.pop,h.stores.emptyIff.mpr empty]
  rw [refused] at run exactAfter
  rw [run,exactInjective exactAfter]

theorem exactPops {std n e e'} (run : exec (exactStep std) e (List.replicate n (.pop none)) = some e') :
    e'.ring = (fun r : ExactRing => (r.pop none).2)^[n] e.ring := by
  induction n generalizing e with
  | zero => cases run; rfl
  | succ n ih =>
    obtain ⟨next,first,rest⟩ := execCons.mp run
    cases Option.some.inj first
    exact ih rest

theorem advanceIsPops {std s entries} {n : SizeT} (h : Represents s.ring entries)
    (enough : n.toNat ≤ entries.length) :
    ∃ once times, step std s (.advanceHead n) = some once ∧
      exec (step std) s (List.replicate n.toNat (.pop none)) = some times ∧
      once.ring = times.ring := by
  have same : Matches s ⟨s.ring.exact,s.results.map (Except.map valueExact)⟩ := ⟨h.admitted,rfl,rfl⟩
  have allowed : (Op.advanceHead n).Allowed s := by
    intro count after sized
    obtain ⟨counted,run,word⟩ := RingBuffer.sizeRun h.admitted
    cases run.symm.trans sized
    rw [UInt64.le_iff_toNat_le,word,h.stores.size]
    exact enough
  obtain ⟨once,e,moved,exactMoved,left⟩ := stepMatches std same allowed
  obtain ⟨times,e',run,exactRun,right⟩ := sessionMatches std same
    (List.replicate n.toNat (.pop none))
    (meetsAlways (fun op mem _ => by rw [List.eq_of_mem_replicate mem]; trivial) s)
  refine ⟨once,times,moved,run,exactInjective ?_⟩
  rw [left.ring,right.ring,exactPops exactRun,h.stores.popTimes enough]
  cases Option.some.inj exactMoved
  rfl

theorem ringIsBoundedQueue (std : StdVector) (capacity : SizeT) (rb : RingBuffer)
    (made : RingBuffer.construct std capacity = .ok rb) (noWrap : capacity.toNat+1 < 2^64)
    (ops : List Op) (calls : Meets (step std) FifoCall ⟨rb,[]⟩ ops) :
    ∃ s q, exec (step std) ⟨rb,[]⟩ ops = some s ∧
      exec (queueStep capacity.toNat) ⟨[],[]⟩ ops = some q ∧
      s.results.map (Except.map valueExact) = q.results ∧
      Layout capacity s.ring q.ring ∧
      (∀ v, q.ring.length = capacity.toNat → (RingBuffer.push v).run s.ring = .ok false s.ring) ∧
      (∀ outVal, q.ring = [] → (RingBuffer.pop outVal).run s.ring = .ok (false,outVal) s.ring) ∧
      (∀ n : SizeT, n.toNat ≤ q.ring.length →
        ∃ once times, step std s (.advanceHead n) = some once ∧
          exec (step std) s (List.replicate n.toNat (.pop none)) = some times ∧
          once.ring = times.ring) := by
  obtain ⟨s,q,run,queueRun,final⟩ := simulated (fun _ _ _ => stepRefines)
    (constructRefines made noWrap) calls
  have capacitySame : s.ring.capacity = capacity := final.capacity
  refine ⟨s,q,run,queueRun,final.results,?_,?_,?_,?_⟩
  · rw [← capacitySame]
    exact final.ring.layout
  · intro v full
    exact refusedPush final.ring (by rw [capacitySame]; exact full) v
  · intro outVal empty
    exact refusedPop final.ring empty outVal
  · intro n enough
    exact advanceIsPops final.ring enough

theorem ringIsBoundedQueueAtTwo :
    ∃ s q, exec (step StdVector.small) ⟨⟨2,[0,0,0],0,0⟩,[]⟩
        [.push 5,.push 6,.push 7,.advanceHead 1,.pop (some 0),.size] = some s ∧
      exec (queueStep 2) ⟨[],[]⟩ [.push 5,.push 6,.push 7,.advanceHead 1,.pop (some 0),.size] = some q ∧
      s.results.map (Except.map valueExact) = q.results ∧ Layout 2 s.ring q.ring := by
  have calls : Meets (step StdVector.small) FifoCall ⟨⟨2,[0,0,0],0,0⟩,[]⟩
      [.push 5,.push 6,.push 7,.advanceHead 1,.pop (some 0),.size] := by
    refine ⟨⟨rfl,trivial⟩,?_⟩
    rintro _ ⟨⟩
    refine ⟨⟨rfl,trivial⟩,?_⟩
    rintro _ ⟨⟩
    refine ⟨⟨rfl,trivial⟩,?_⟩
    rintro _ ⟨⟩
    refine ⟨⟨rfl,?_⟩,fun _ _ => ⟨⟨rfl,trivial⟩,fun _ _ => ⟨⟨rfl,trivial⟩,fun _ _ => trivial⟩⟩⟩
    rintro count after ⟨⟩
    decide
  obtain ⟨s,q,run,queueRun,results,layout,_⟩ :=
    ringIsBoundedQueue StdVector.small 2 ⟨2,[0,0,0],0,0⟩ (by decide) (by decide) _ calls
  exact ⟨s,q,run,queueRun,results,layout⟩

end FastReplay
