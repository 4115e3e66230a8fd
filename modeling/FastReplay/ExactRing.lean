import FastReplay.CyclicIndex
import FastReplay.RingBuffer

/-! The ring with every sum, difference and remainder taken over the integers.
It is the reference the 64-bit code is compared with, and the memory that the
threads share. -/
namespace FastReplay

structure ExactRing where
  capacity : Nat
  buf : List CInt
  head : Nat
  tail : Nat
  deriving DecidableEq, Repr

namespace ExactRing

def construct (capacity : Nat) : ExactRing := ⟨capacity,List.replicate (capacity+1) 0,0,0⟩

def advanceHead (r : ExactRing) (n : Nat) : ExactRing :=
  { r with head := (r.head + n) % (r.capacity + 1) }

def push (r : ExactRing) (value : CInt) : Bool × ExactRing :=
  let nextTail := (r.tail + 1) % (r.capacity + 1)
  if nextTail = r.head then (false,r)
  else (true,{ r with buf := r.buf.set r.tail value, tail := nextTail })

def pop (r : ExactRing) (outVal : Option CInt) : (Bool × Option CInt) × ExactRing :=
  if r.head = r.tail then ((false,outVal),r)
  else ((true,outVal.map fun _ => r.buf.getD r.head 0),
    { r with head := (r.head + 1) % (r.capacity + 1) })

/- size() of the two indices it loaded, which may come from different moments. -/
def sizeFrom (capacity t h : Nat) : Nat :=
  (((t : Int) - h + capacity + 1) % (capacity + 1)).toNat

def size (r : ExactRing) : Nat := sizeFrom r.capacity r.tail r.head

def empty (r : ExactRing) : Bool := r.head = r.tail

def sampleIndices (r : ExactRing) (std : StdVector) (gen : Generator) (batchSize : Nat) :
    Except Exception (List Nat) :=
  if r.size = 0 then .error (.runtimeError "sample_indices: buffer is empty")
  else if std.maxWords < batchSize then .error .lengthError
  else .ok ((List.range batchSize).map fun i =>
    (r.head + gen.draw (r.size - 1) i) % (r.capacity + 1))

def memcpy (r : ExactRing) (start count : Nat) : List CInt := (r.buf.drop start).take count

def popView (r : ExactRing) (built : Bool) (n : Nat) :
    Except Exception (PyArray Nat) × ExactRing :=
  if r.size < n then (.error (.runtimeError "Not enough data."),r)
  else if !built then (.error .badAlloc,r)
  else if r.head + n ≤ r.capacity + 1 then (.ok (.view r.head n),r.advanceHead n)
  else
    let firstChunk := r.capacity + 1 - r.head
    let secondChunk := n - firstChunk
    (.ok (.copied (r.memcpy r.head firstChunk ++ r.memcpy 0 secondChunk)),r.advanceHead n)

theorem pushCapacity (r : ExactRing) (v : CInt) : (r.push v).2.capacity = r.capacity := by
  unfold push
  dsimp only
  split <;> rfl

theorem popCapacity (r : ExactRing) (outVal : Option CInt) : (r.pop outVal).2.capacity = r.capacity := by
  unfold pop
  split <;> rfl

theorem popBuf (r : ExactRing) (outVal : Option CInt) : (r.pop outVal).2.buf = r.buf := by
  unfold pop
  split <;> rfl

theorem popAdvance {r : ExactRing} (apart : r.head ≠ r.tail) (outVal : Option CInt) :
    (r.pop outVal).2 = r.advanceHead 1 := by
  rw [pop,if_neg apart]
  rfl

theorem advanceTwice (r : ExactRing) (n : Nat) :
    (r.advanceHead 1).advanceHead n = r.advanceHead (n+1) := by
  simp only [advanceHead,Nat.mod_add_mod,Nat.add_assoc,Nat.add_comm 1 n]

theorem pushSlot {r : ExactRing} {i : Nat} {x : CInt} (v : CInt) (found : r.buf[i]? = some x) :
    (r.push v).2.buf[i]? = some x ∨ (r.push v).2.buf[i]? = some v := by
  unfold push
  dsimp only
  split
  · exact .inl found
  · by_cases same : r.tail = i
    · subst same
      exact .inr (List.getElem?_set_self (List.getElem?_eq_some_iff.mp found).1)
    · exact .inl ((List.getElem?_set_ne same).trans found)

/- The ring stores the entries of a queue, oldest at head. One slot stays free. -/
structure Stores (r : ExactRing) (entries : List CInt) : Prop where
  slots : r.buf.length = r.capacity + 1
  head : r.head < r.capacity + 1
  tail : r.tail = (r.head + entries.length) % (r.capacity + 1)
  fits : entries.length ≤ r.capacity
  live : CyclicIndex.Holds r.buf r.head entries

theorem constructStores (capacity : Nat) : Stores (construct capacity) [] := by
  constructor <;> simp [construct,CyclicIndex.holdsNil]

variable {r : ExactRing} {entries : List CInt}

theorem Stores.count (h : Stores r entries) :
    CyclicIndex.gap (r.capacity+1) r.head r.tail = entries.length := by
  have small := h.fits
  rw [h.tail,CyclicIndex.gapAt h.head (by omega)]

theorem sizeFromGap {capacity t h : Nat} (below : h < capacity + 1) :
    sizeFrom capacity t h = CyclicIndex.gap (capacity+1) h t := by
  have cast : (t : Int) - h + capacity + 1 = ((t + (capacity+1) - h : Nat) : Int) := by omega
  rw [sizeFrom,cast]
  exact congrArg Int.toNat (Int.natCast_mod _ _).symm

theorem sizeGap (below : r.head < r.capacity + 1) :
    r.size = CyclicIndex.gap (r.capacity+1) r.head r.tail := sizeFromGap below

theorem Stores.size (h : Stores r entries) : r.size = entries.length := by
  rw [sizeGap h.head,h.count]

theorem Stores.emptyIff (h : Stores r entries) : r.head = r.tail ↔ entries = [] := by
  constructor
  · intro same
    exact List.length_eq_zero_iff.mp (by rw [← h.count,← same,CyclicIndex.gapSelf])
  · rintro rfl
    rw [h.tail,List.length_nil,Nat.add_zero,Nat.mod_eq_of_lt h.head]

theorem Stores.fullIff (h : Stores r entries) :
    (r.tail + 1) % (r.capacity+1) = r.head ↔ entries.length = r.capacity := by
  have small := h.fits
  rw [h.tail,CyclicIndex.stepSlot]
  constructor
  · intro same
    by_contra room
    have next := CyclicIndex.gapAt (n := entries.length+1) h.head (by omega)
    rw [same,CyclicIndex.gapSelf] at next
    omega
  · intro full
    rw [full,Nat.add_mod_right,Nat.mod_eq_of_lt h.head]

theorem Stores.contents (h : Stores r entries) :
    CyclicIndex.window r.buf r.head r.size = entries := by
  have small := h.fits
  rw [h.size]
  exact CyclicIndex.holdsWindow h.live (by rw [h.slots]; omega)

theorem Stores.push (h : Stores r entries) (v : CInt) :
    (r.push v).1 = (BoundedQueue.offer r.capacity entries v).1 ∧
      Stores (r.push v).2 (BoundedQueue.offer r.capacity entries v).2 := by
  have small := h.fits
  unfold ExactRing.push BoundedQueue.offer
  by_cases full : (r.tail+1) % (r.capacity+1) = r.head
  · have len := h.fullIff.mp full
    simpa [full,len] using h
  · have len : entries.length ≠ r.capacity := fun len => full (h.fullIff.mpr len)
    simp only [full,if_false,if_pos (show entries.length < r.capacity by omega)]
    refine ⟨trivial,?_⟩
    constructor
    · simpa using h.slots
    · exact h.head
    · simp only [List.length_append,List.length_singleton]
      rw [h.tail,CyclicIndex.stepSlot]
    · simp only [List.length_append,List.length_singleton]
      omega
    · have room : entries.length < r.buf.length := by rw [h.slots]; omega
      have added := CyclicIndex.holdsAppend (v := v) h.live room
      rwa [h.slots,← h.tail] at added

theorem Stores.pushRoom (h : Stores r entries) (room : entries.length < r.capacity) (v : CInt) :
    (r.push v).1 = true ∧ Stores (r.push v).2 (entries ++ [v]) := by
  have pushed := h.push v
  have offered : BoundedQueue.offer r.capacity entries v = (true,entries ++ [v]) := if_pos room
  rwa [offered] at pushed

theorem Stores.advanceHead (h : Stores r entries) {n : Nat} (enough : n ≤ entries.length) :
    Stores (r.advanceHead n) (entries.drop n) := by
  have small := h.fits
  constructor
  · exact h.slots
  · exact Nat.mod_lt _ (by omega)
  · have total : r.head+n+(entries.length-n) = r.head+entries.length := by omega
    simp only [ExactRing.advanceHead,List.length_drop]
    rw [h.tail,Nat.mod_add_mod,total]
  · simp only [ExactRing.advanceHead,List.length_drop]
    omega
  · have dropped := CyclicIndex.holdsDrop (n := n) h.live
    rwa [h.slots] at dropped

def popped (entries : List CInt) (outVal : Option CInt) : Bool × Option CInt :=
  match (BoundedQueue.poll entries).1 with
  | none => (false,outVal)
  | some v => (true,outVal.map fun _ => v)

theorem Stores.pop (h : Stores r entries) (outVal : Option CInt) :
    (r.pop outVal).1 = popped entries outVal ∧
      Stores (r.pop outVal).2 (BoundedQueue.poll entries).2 := by
  unfold ExactRing.pop popped
  cases entries with
  | nil =>
    have same := h.emptyIff.mpr rfl
    simpa [same,BoundedQueue.poll] using h
  | cons v rest =>
    have apart : r.head ≠ r.tail := fun same => by simpa using h.emptyIff.mp same
    have front := h.live 0 (by simp)
    rw [h.slots,Nat.add_zero,Nat.mod_eq_of_lt h.head] at front
    simp only [apart,if_false,BoundedQueue.poll]
    exact ⟨by simp [List.getD,front],h.advanceHead (n := 1) (by simp)⟩

end ExactRing
end FastReplay
