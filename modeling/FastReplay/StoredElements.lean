import Mathlib.Data.Set.Function
import FastReplay.QueueCalls
import FastReplay.RingBounds

/-! What was pushed and not yet popped, told by the calls of a session and their
results alone, and the slots that hold it. -/
namespace FastReplay
open GuardedRun
open RingBuffer (Admitted)

def Op.remaining {ι : Type} (entries : List CInt) : Op → Except Exception (Value ι) → List CInt
  | .push value,.ok (.flag true) => entries ++ [value]
  | .pop _,.ok (.popped true _) => entries.drop 1
  | .advanceHead n,.ok _ => entries.drop n.toNat
  | .popView _ n,.ok _ => entries.drop n.toNat
  | _,_ => entries

def remainingAfter (entries : List CInt) (ops : List Op)
    (results : List (Except Exception (Value SizeT))) : List CInt :=
  (ops.zip results).foldl (fun left call => call.1.remaining left call.2) entries

def unpopped (ops : List Op) (results : List (Except Exception (Value SizeT))) : List CInt :=
  remainingAfter [] ops results

theorem remainingExact (entries : List CInt) (op : Op) (result : Except Exception (Value SizeT)) :
    op.remaining entries (result.map valueExact) = op.remaining entries result := by
  cases result with
  | error e => cases op <;> rfl
  | ok value =>
    cases op with
    | push v =>
      cases value with
      | flag b => cases b <;> rfl
      | _ => rfl
    | pop outVal =>
      cases value with
      | popped b out => cases b <;> rfl
      | _ => rfl
    | _ => cases value <;> rfl

namespace ExactRing
variable {r : ExactRing} {entries : List CInt}

theorem Stores.front (h : Stores r entries) {n : Nat} (enough : n ≤ entries.length) :
    CyclicIndex.window r.buf r.head n = entries.take n := by
  have small := h.fits
  have slots := h.slots
  have read := CyclicIndex.holdsWindow (CyclicIndex.holdsTake n h.live)
    (by rw [List.length_take]; omega)
  rwa [List.length_take,Nat.min_eq_left enough] at read

theorem Stores.popViewIs (h : Stores r entries) (built : Bool) (n : Nat) :
    r.popView built n =
      if entries.length < n then (.error (.runtimeError "Not enough data."),r)
      else if !built then (.error .badAlloc,r)
      else (.ok (if r.head+n ≤ r.capacity+1 then .view r.head n else .copied (entries.take n)),
        r.advanceHead n) := by
  have small := h.fits
  have slots := h.slots
  have head := h.head
  unfold ExactRing.popView
  rw [h.size]
  split
  · rfl
  split
  · rfl
  split
  · rfl
  · rw [← h.front (by omega),CyclicIndex.windowWrapped (by omega) (by omega) (by omega),slots]
    rfl

theorem Stores.remaining (h : Stores r entries) (std : StdVector) {op : Op}
    (enough : ∀ n, op = .advanceHead n → n.toNat ≤ entries.length) :
    Stores (op.exact std r).2 (op.remaining entries (op.exact std r).1) := by
  cases op with
  | push value =>
    obtain ⟨flag,stores⟩ := h.push value
    simp only [Op.exact,flag]
    unfold BoundedQueue.offer at stores ⊢
    by_cases room : entries.length < r.capacity
    · rw [if_pos room] at stores ⊢
      exact stores
    · rw [if_neg room] at stores ⊢
      exact stores
  | pop outVal =>
    obtain ⟨result,stores⟩ := h.pop outVal
    simp only [Op.exact,result]
    cases entries with
    | nil => exact stores
    | cons v rest => exact stores
  | advanceHead n => exact h.advanceHead (enough n rfl)
  | size => exact h
  | empty => exact h
  | sampleIndices gen batchSize =>
    cases drawn : r.sampleIndices std gen batchSize.toNat <;> exact h
  | popView built n =>
    simp only [Op.exact,h.popViewIs built n.toNat]
    by_cases short : entries.length < n.toNat
    · rw [if_pos short]
      exact h
    rw [if_neg short]
    cases built with
    | false => exact h
    | true => exact h.advanceHead (by omega)

end ExactRing

namespace Represents

theorem callExact {std : StdVector} {s : Session RingBuffer SizeT} {op : Op} {entries : List CInt}
    (h : Represents s.ring entries) (allowed : op.Allowed s) :
    ∃ t result, step std s op = some t ∧ t.results = s.results ++ [result] ∧
      result.map valueExact = (op.exact std s.ring.exact).1 ∧
      t.ring.exact = (op.exact std s.ring.exact).2 ∧ Admitted t.ring := by
  have agrees := opAgrees std h.admitted allowed
  unfold RingBuffer.Agrees at agrees
  unfold step
  split at agrees
  · rename_i v after result
    rw [result,agrees.1]
    exact ⟨_,.ok v,rfl,rfl,rfl,rfl,agrees.2⟩
  · rename_i e after result
    rw [result,agrees.1]
    exact ⟨_,.error e,rfl,rfl,rfl,rfl,agrees.2⟩
  · contradiction

theorem afterCall {std : StdVector} {s : Session RingBuffer SizeT} {op : Op} {entries : List CInt}
    (h : Represents s.ring entries) (allowed : op.Allowed s) :
    ∃ t result, step std s op = some t ∧ t.results = s.results ++ [result] ∧
      Represents t.ring (op.remaining entries result) ∧ t.ring.capacity = s.ring.capacity := by
  obtain ⟨t,result,moved,appended,same,exactRing,admitted⟩ :=
    h.callExact allowed
  have enough : ∀ n, op = .advanceHead n → n.toNat ≤ entries.length := by
    rintro n rfl
    exact allowedCount h allowed
  have stores := h.stores.remaining std enough
  have capacity := exactCapacity std s.ring.exact op
  rw [← same,remainingExact,← exactRing] at stores
  rw [← exactRing] at capacity
  exact ⟨t,result,moved,appended,⟨admitted,stores⟩,sameCapacity capacity⟩

theorem afterCalls {std : StdVector} {s t : Session RingBuffer SizeT} {ops : List Op}
    {entries : List CInt} (h : Represents s.ring entries)
    (allowed : Meets (step std) Op.Allowed s ops) (run : exec (step std) s ops = some t) :
    ∃ results, t.results = s.results ++ results ∧
      Represents t.ring (remainingAfter entries ops results) ∧ t.ring.capacity = s.ring.capacity := by
  induction ops generalizing s entries with
  | nil =>
    cases run
    exact ⟨[],(List.append_nil _).symm,h,rfl⟩
  | cons op ops ih =>
    obtain ⟨next,first,later⟩ := execCons.mp run
    obtain ⟨t,result,moved,appended,kept,same⟩ := h.afterCall allowed.1
    cases moved.symm.trans first
    obtain ⟨results,rest,final,sameRest⟩ := ih kept (allowed.2 next first) later
    refine ⟨result::results,?_,final,sameRest.trans same⟩
    rw [rest,appended,List.append_assoc,List.singleton_append]

end Represents

theorem zeroSize {rb : RingBuffer} (zero : rb.capacity+1 = 0) :
    RingBuffer.size.run rb = .error .divideByZero rb := by
  simp only [RingBuffer.size,EStateM.run_bind,EStateM.run_get,zeroModulo zero]

theorem zeroStays {std : StdVector} {s t : Session RingBuffer SizeT} {op : Op}
    (zero : s.ring.capacity+1 = 0) (same : s.ring.head = s.ring.tail)
    (moved : step std s op = some t) : t.ring = s.ring := by
  have stuck := zeroModulo zero
  have unsized := zeroSize zero
  unfold step at moved
  cases op with
  | pop outVal =>
    simp only [Op.call,RingBuffer.runMap,RingBuffer.pop,EStateM.run_bind,EStateM.run_get,if_pos same,
      EStateM.run_pure] at moved
    cases Option.some.inj moved
    rfl
  | empty =>
    simp only [Op.call,RingBuffer.runMap,RingBuffer.emptyRun] at moved
    cases Option.some.inj moved
    rfl
  | push v =>
    simp only [Op.call,RingBuffer.runMap,RingBuffer.push,EStateM.run_bind,EStateM.run_get,stuck] at moved
    contradiction
  | advanceHead n =>
    simp only [Op.call,RingBuffer.runMap,RingBuffer.advanceHead,EStateM.run_bind,EStateM.run_get,
      stuck] at moved
    contradiction
  | size =>
    simp only [Op.call,RingBuffer.runMap,unsized] at moved
    contradiction
  | sampleIndices gen batchSize =>
    simp only [Op.call,RingBuffer.runMap,RingBuffer.sampleIndices,EStateM.run_bind,EStateM.run_get,
      stuck] at moved
    contradiction
  | popView built n =>
    simp only [Op.call,RingBuffer.runMap,RingBuffer.popView,EStateM.run_bind,unsized] at moved
    contradiction

section
variable {std : StdVector} {capacity : SizeT} {rb : RingBuffer} {ops : List Op}
  {s : Session RingBuffer SizeT}

theorem stored (made : RingBuffer.construct std capacity = .ok rb)
    (noWrap : capacity.toNat+1 < 2^64) (allowed : Meets (step std) Op.Allowed ⟨rb,[]⟩ ops)
    (run : exec (step std) ⟨rb,[]⟩ ops = some s) :
    Represents s.ring (unpopped ops s.results) ∧ s.ring.capacity = capacity := by
  have start := constructRefines made noWrap
  obtain ⟨results,same,final,kept⟩ := start.ring.afterCalls allowed run
  rw [List.nil_append] at same
  subst same
  exact ⟨final,kept.trans start.capacity⟩

theorem sizedStored {count : SizeT} (made : RingBuffer.construct std capacity = .ok rb)
    (allowed : Meets (step std) Op.Allowed ⟨rb,[]⟩ ops)
    (run : exec (step std) ⟨rb,[]⟩ ops = some s)
    (sized : RingBuffer.size.run s.ring = .ok count s.ring) :
    Represents s.ring (unpopped ops s.results) ∧ s.ring.capacity = capacity ∧
      count.toNat = (unpopped ops s.results).length := by
  by_cases noWrap : capacity.toNat+1 < 2^64
  · obtain ⟨h,same⟩ := stored made noWrap allowed run
    obtain ⟨n,returned,word⟩ := h.sizeRun
    cases returned.symm.trans sized
    exact ⟨h,same,word⟩
  · have zero := zeroSlots noWrap
    have fresh := (RingBuffer.constructed made).1
    have kept : s.ring = rb := preserved (I := fun u => u.ring = rb)
      (fun u op t same moved => by
        rw [← same]
        exact zeroStays (by rw [same,fresh]; exact zero) (by rw [same,fresh]) moved) run rfl
    have noModulus : s.ring.capacity+1 = 0 := by rw [kept,fresh]; exact zero
    rw [zeroSize noModulus] at sized
    contradiction

theorem reachedExactly {P : RingBuffer → List CInt → Prop}
    (made : RingBuffer.construct std capacity = .ok rb)
    (stores : ∀ ring entries, Represents ring entries → P ring entries)
    (stuck : ∀ ring, ring.capacity+1 = 0 → ¬ P ring []) :
    (∀ ops s, Meets (step std) Op.Allowed ⟨rb,[]⟩ ops → exec (step std) ⟨rb,[]⟩ ops = some s →
      P s.ring (unpopped ops s.results)) ↔ capacity.toNat ≠ 2^64-1 := by
  have below := capacity.toNat_lt
  constructor
  · intro always wrapped
    have zero : capacity+1 = 0 := zeroSlots (by omega)
    refine stuck rb ?_ (always [] ⟨rb,[]⟩ trivial rfl)
    rw [(RingBuffer.constructed made).1]
    exact zero
  · intro noWrap ops s allowed run
    exact stores _ _ (stored made (by omega) allowed run).1

end

def liveSlots (rb : RingBuffer) : Finset Nat :=
  CyclicIndex.arc (rb.capacity.toNat+1) rb.head.toNat rb.tail.toNat

namespace Represents
variable {rb : RingBuffer} {entries : List CInt}

theorem liveArc (h : Represents rb entries) : liveSlots rb =
    CyclicIndex.arc (rb.capacity.toNat+1) rb.head.toNat
      ((rb.head.toNat+entries.length) % (rb.capacity.toNat+1)) :=
  congrArg (CyclicIndex.arc _ _) h.stores.tail

theorem slotsLive (h : Represents rb entries) :
    Set.BijOn (slot rb) (Set.Iio entries.length) (liveSlots rb) := by
  rw [h.liveArc]
  exact CyclicIndex.arcBijective h.admitted.head (Nat.lt_succ_of_le h.stores.fits)

theorem liveEntry (h : Represents rb entries) {i : Nat} (inside : i < entries.length) :
    rb.buf[slot rb i]? = entries[i]? := h.layout.live i inside

end Represents
end FastReplay
