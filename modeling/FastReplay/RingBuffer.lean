import Mathlib.Algebra.Group.Nat.Defs

/-! fastreplay::RingBuffer as one thread runs it, on 64-bit size_t. Undefined
behaviour (a zero modulus, a slot outside buf_) is a fault, never a value. What
std::vector, the allocator of the result arrays and the random engine decide is
a parameter: only their documented limits are known here. -/
namespace FastReplay

abbrev SizeT := UInt64
abbrev CInt := Int32

inductive Exception where
  | lengthError
  | badAlloc
  | runtimeError (what : String)
  deriving DecidableEq, Repr

inductive Fault where
  | divideByZero
  | outsideStorage
  | raised (exception : Exception)
  deriving DecidableEq, Repr

def Fault.undefined : Fault → Bool
  | .raised _ => false
  | _ => true

/- Both element types of the source. A vector longer than max_size is refused. -/
structure StdVector where
  maxInts : Nat
  maxWords : Nat
  intsBelow : maxInts < 2^62

def StdVector.small : StdVector := ⟨100,100,by decide⟩

/- dist(rng) for uniform_int_distribution(0,hi), at the i-th draw of a call. -/
structure Generator where
  draw : Nat → Nat → Nat
  inRange : ∀ hi i, draw hi i ≤ hi

def Generator.always (n : Nat) : Generator := ⟨fun hi _ => min hi n,fun _ _ => Nat.min_le_left _ _⟩

theorem Generator.drawsAlways {n hi i : Nat} (small : n ≤ hi) : (Generator.always n).draw hi i = n :=
  Nat.min_eq_right small

structure RingBuffer where
  capacity : SizeT
  buf : List CInt
  head : SizeT
  tail : SizeT
  deriving DecidableEq, Repr

inductive PyArray (ι : Type) where
  | view (start count : ι)
  | copied (values : List CInt)
  deriving DecidableEq, Repr

namespace RingBuffer

abbrev Call := EStateM Fault RingBuffer

def construct (std : StdVector) (capacity : SizeT) : Except Fault RingBuffer :=
  let slots := capacity + 1
  if std.maxInts < slots.toNat then .error (.raised .lengthError)
  else .ok ⟨capacity,List.replicate slots.toNat 0,0,0⟩

def modulo (a m : SizeT) : Call SizeT :=
  if m = 0 then throw .divideByZero else pure (a % m)

def readSlot (i : SizeT) : Call CInt := do
  match (← get).buf[i.toNat]? with
  | some value => pure value
  | none => throw .outsideStorage

def writeSlot (i : SizeT) (value : CInt) : Call Unit := do
  if i.toNat < (← get).buf.length then
    modify fun rb => { rb with buf := rb.buf.set i.toNat value }
  else throw .outsideStorage

def advanceHead (n : SizeT) : Call Unit := do
  let cur := (← get).head
  let next ← modulo (cur + n) ((← get).capacity + 1)
  modify fun rb => { rb with head := next }

def push (value : CInt) : Call Bool := do
  let curTail := (← get).tail
  let nextTail ← modulo (curTail + 1) ((← get).capacity + 1)
  if nextTail = (← get).head then
    return false
  else
    writeSlot curTail value
    modify fun rb => { rb with tail := nextTail }
    return true

/- outVal is what out_val points to, and none when it is nullptr. The second
result is what it points to afterwards. -/
def pop (outVal : Option CInt) : Call (Bool × Option CInt) := do
  let curHead := (← get).head
  if curHead = (← get).tail then
    return (false,outVal)
  else
    let out ← match outVal with
      | some _ => some <$> readSlot curHead
      | none => pure none
    let next ← modulo (curHead + 1) ((← get).capacity + 1)
    modify fun rb => { rb with head := next }
    return (true,out)

def size : Call SizeT := do
  let t := (← get).tail
  let h := (← get).head
  modulo (t - h + (← get).capacity + 1) ((← get).capacity + 1)

def empty : Call Bool := do
  let rb ← get
  return rb.head = rb.tail

def getCapacity : Call SizeT := return (← get).capacity

def sampleIndices (std : StdVector) (gen : Generator) (batchSize : SizeT) : Call (List SizeT) := do
  let h := (← get).head
  let t := (← get).tail
  let n ← modulo (t - h + (← get).capacity + 1) ((← get).capacity + 1)
  if n = 0 then
    throw (.raised (.runtimeError "sample_indices: buffer is empty"))
  else if std.maxWords < batchSize.toNat then
    throw (.raised .lengthError)
  else
    let phys := (← get).capacity + 1
    (List.range batchSize.toNat).mapM fun i =>
      modulo (h + UInt64.ofNat (gen.draw (n - 1).toNat i)) phys

def popValue : Call (Option CInt) := do
  let (popped,val) ← pop (some 0)
  return if popped then val else none

/- std::memcpy of count ints from slot start; the length is passed in bytes. -/
def memcpy (start count : SizeT) : Call (List CInt) := do
  let ints := (count * 4).toNat / 4
  if start.toNat + ints ≤ (← get).buf.length then
    return ((← get).buf.drop start.toNat).take ints
  else throw .outsideStorage

/- built: whether NumPy could make the result array. -/
def popView (built : Bool) (n : SizeT) : Call (PyArray SizeT) := do
  if (← size) < n then
    throw (.raised (.runtimeError "Not enough data."))
  else
    let currentHead := (← get).head
    let physCapacity := (← get).capacity + 1
    if currentHead + n ≤ physCapacity then
      if !built then
        throw (.raised .badAlloc)
      else if currentHead.toNat + n.toNat ≤ (← get).buf.length then
        advanceHead n
        return .view currentHead n
      else throw .outsideStorage
    else
      let firstChunk := physCapacity - currentHead
      let secondChunk := n - firstChunk
      if !built then
        throw (.raised .badAlloc)
      else
        let first ← memcpy currentHead firstChunk
        let second ← memcpy 0 secondChunk
        -- dest has n ints, and second goes to dest + firstChunk
        if first.length + second.length = n.toNat then
          advanceHead n
          return .copied (first ++ second)
        else throw .outsideStorage

/- np.asarray(rb): the buffer protocol exposes capacity() + 1 ints from data(). -/
def asarray : Call (List CInt) := do
  let shape := (← get).capacity + 1
  if shape.toNat ≤ (← get).buf.length then
    return (← get).buf.take shape.toNat
  else throw .outsideStorage

def sampleIndicesInt64 (std : StdVector) (gen : Generator) (batchSize : SizeT) :
    Call (List Int64) := do
  let indices ← sampleIndices std gen batchSize
  return indices.map UInt64.toInt64

end RingBuffer
end FastReplay
