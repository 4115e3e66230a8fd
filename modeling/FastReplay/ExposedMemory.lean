import FastReplay.ViewLifetime

/-! One thread that keeps the arrays it is handed, np.asarray(rb) and those of
pop_view, and reads and writes through them between its calls. Beside it stands
the log of the last capacity + 1 values pushed: no slot, no index, no wrap. -/
namespace FastReplay
open GuardedRun

inductive Use where
  | call (op : Op)
  | asarray
  | getItem (array : Nat) (index : Int)
  | setItem (array : Nat) (index : Int) (value : CInt)

inductive Seen (ι : Type) where
  | returned (result : Except Exception (Value ι))
  | exposed (a : PyArray ι)
  | item (value : CInt)
  | done
  | indexError

structure Script (ρ ι : Type) where
  memory : ρ
  held : List (PyArray ι)
  seen : List (Seen ι)

/- Entry index of n entries in NumPy: a negative index counts from the end. -/
def numpyPlace (n : Nat) (index : Int) : Option Nat :=
  let place := if index < 0 then index + n else index
  if place < 0 then none
  else if place.toNat < n then some place.toNat
  else none

structure Memory (ρ ι : Type) where
  call : ρ → Op → Option (Except Exception (Value ι) × ρ)
  asarray : ρ → Option (PyArray ι)
  count : ι → Nat
  load : ρ → ι → Nat → Option CInt
  store : ρ → ι → Nat → CInt → ρ

def Value.arrays {ι : Type} : Except Exception (Value ι) → List (PyArray ι)
  | .ok (.array a) => [a]
  | _ => []

namespace Memory
variable {ρ ι : Type} (m : Memory ρ ι)

def length : PyArray ι → Nat
  | .view _ n => m.count n
  | .copied values => values.length

def getItem (r : ρ) : PyArray ι → Nat → Option CInt
  | .view first _,i => m.load r first i
  | .copied values,i => values[i]?

def setItem (r : ρ) : PyArray ι → Nat → CInt → ρ × PyArray ι
  | .view first n,i,v => (m.store r first i v,.view first n)
  | .copied values,i,v => (r,.copied (values.set i v))

def step (s : Script ρ ι) : Use → Option (Script ρ ι)
  | .call op => do
    let (result,after) ← m.call s.memory op
    some ⟨after,s.held ++ Value.arrays result,s.seen ++ [.returned result]⟩
  | .asarray => do
    let a ← m.asarray s.memory
    some ⟨s.memory,s.held ++ [a],s.seen ++ [.exposed a]⟩
  | .getItem array index => do
    let a ← s.held[array]?
    match numpyPlace (m.length a) index with
    | none => some ⟨s.memory,s.held,s.seen ++ [.indexError]⟩
    | some i => do
      let v ← m.getItem s.memory a i
      some ⟨s.memory,s.held,s.seen ++ [.item v]⟩
  | .setItem array index v => do
    let a ← s.held[array]?
    match numpyPlace (m.length a) index with
    | none => some ⟨s.memory,s.held,s.seen ++ [.indexError]⟩
    | some i => do
      let _ ← m.getItem s.memory a i
      some ⟨(m.setItem s.memory a i v).1,s.held.set array (m.setItem s.memory a i v).2,s.seen ++ [.done]⟩

variable {m : Memory ρ ι} {s : Script ρ ι} {array i : Nat} {index : Int} {a : PyArray ι} {v : CInt}

theorem refused (here : s.held[array]? = some a) (outside : numpyPlace (m.length a) index = none) :
    m.step s (.getItem array index) = some ⟨s.memory,s.held,s.seen ++ [.indexError]⟩ ∧
      ∀ v, m.step s (.setItem array index v) = some ⟨s.memory,s.held,s.seen ++ [.indexError]⟩ := by
  simp [step,here,outside]

theorem got (here : s.held[array]? = some a) (place : numpyPlace (m.length a) index = some i)
    (value : m.getItem s.memory a i = some v) :
    m.step s (.getItem array index) = some ⟨s.memory,s.held,s.seen ++ [.item v]⟩ := by
  simp [step,here,place,value]

theorem written (here : s.held[array]? = some a) (place : numpyPlace (m.length a) index = some i)
    (old : m.getItem s.memory a i = some v) (w : CInt) :
    m.step s (.setItem array index w) = some ⟨(m.setItem s.memory a i w).1,
      s.held.set array (m.setItem s.memory a i w).2,s.seen ++ [.done]⟩ := by
  simp [step,here,place,old]

end Memory

theorem numpyPlaceBelow {n i : Nat} {index : Int} (place : numpyPlace n index = some i) : i < n := by
  unfold numpyPlace at place
  dsimp only at place
  generalize (if index < 0 then index + (n : Int) else index) = entry at place
  split at place <;> try contradiction
  split at place <;> try contradiction
  cases Option.some.inj place
  assumption

def ringMemory (std : StdVector) : Memory RingBuffer SizeT where
  call rb op := match (op.call std).run rb with
    | .ok value after => some (.ok value,after)
    | .error (.raised e) after => some (.error e,after)
    | .error _ _ => none
  asarray rb := match RingBuffer.asarray.run rb with
    | .ok _ after => some (.view 0 (after.capacity+1))
    | .error _ _ => none
  count := UInt64.toNat
  load rb first i := rb.buf[first.toNat+i]?
  store rb first i v := { rb with buf := rb.buf.set (first.toNat+i) v }

def Use.Allowed (s : Script RingBuffer SizeT) : Use → Prop
  | .call op => op.Allowed ⟨s.memory,[]⟩
  | .asarray => True
  | .getItem array _ => array < s.held.length
  | .setItem array _ _ => array < s.held.length

/- The last values pushed, oldest first, of which the last stored ones are not
popped. Before the first lap the constructor's zeros are among them. -/
structure Recent where
  last : List CInt
  stored : Nat
  pushed : Nat

namespace Recent

def fresh (capacity : Nat) : Recent := ⟨List.replicate (capacity+1) 0,0,0⟩

def entries (r : Recent) : List CInt := r.last.drop (r.last.length-r.stored)

def popped (r : Recent) : Nat := r.pushed-r.stored

def log (r : Recent) (v : CInt) : Recent := ⟨r.last.drop 1 ++ [v],r.stored+1,r.pushed+1⟩

def consume (r : Recent) (n : Nat) : Recent := { r with stored := r.stored-n }

def place (r : Recent) (position : Nat) : Nat :=
  CyclicIndex.gap r.last.length (r.pushed % r.last.length) (position % r.last.length)

def offer (r : Recent) (v : CInt) : Bool × Recent :=
  if r.stored+1 < r.last.length then (true,r.log v) else (false,r)

def sample (r : Recent) (std : StdVector) (gen : Generator) (b : Nat) : Except Exception (Value Nat) :=
  if r.stored = 0 then .error (.runtimeError "sample_indices: buffer is empty")
  else if std.maxWords < b then .error .lengthError
  else .ok (.indices ((List.range b).map fun i =>
    (r.popped + gen.draw (r.stored-1) i) % r.last.length))

/- The array shares memory unless its positions cross into the next lap. -/
def front (r : Recent) (n : Nat) : PyArray Nat :=
  if r.popped % r.last.length + n ≤ r.last.length then .view r.popped n else .copied (r.entries.take n)

def answer (std : StdVector) (r : Recent) : Op → Except Exception (Value Nat) × Recent
  | .push v => (.ok (.flag (r.offer v).1),(r.offer v).2)
  | .pop outVal => (.ok (.popped (ExactRing.popped r.entries outVal).1
      (ExactRing.popped r.entries outVal).2),r.consume 1)
  | .advanceHead n => (.ok .done,r.consume n.toNat)
  | .size => (.ok (.count r.stored),r)
  | .empty => (.ok (.flag (r.stored = 0)),r)
  | .sampleIndices gen b => (r.sample std gen b.toNat,r)
  | .popView built n =>
    if r.stored < n.toNat then (.error (.runtimeError "Not enough data."),r)
    else if !built then (.error .badAlloc,r)
    else (.ok (.array (r.front n.toNat)),r.consume n.toNat)

def memory (std : StdVector) : Memory Recent Nat where
  call r op := some (r.answer std op)
  asarray r := some (.view 0 r.last.length)
  count := id
  load r position i := r.last[r.place (position+i)]?
  store r position i v := { r with last := r.last.set (r.place (position+i)) v }

end Recent

def onSlots (m : Nat) : PyArray Nat → PyArray Nat
  | .view position n => .view (position % m) n
  | .copied values => .copied values

def valueOnSlots (m : Nat) : Value Nat → Value Nat
  | .array a => .array (onSlots m a)
  | value => value

def Seen.onSlots (m : Nat) : Seen Nat → Seen Nat
  | .returned result => .returned (result.map (valueOnSlots m))
  | .exposed a => .exposed (FastReplay.onSlots m a)
  | .item v => .item v
  | .done => .done
  | .indexError => .indexError

def Seen.exact : Seen SizeT → Seen Nat
  | .returned result => .returned (result.map valueExact)
  | .exposed a => .exposed (RingBuffer.arrayExact a)
  | .item v => .item v
  | .done => .done
  | .indexError => .indexError

structure Mirrors (rb : RingBuffer) (r : Recent) : Prop where
  represents : Represents rb r.entries
  slots : r.last.length = rb.capacity.toNat+1
  tail : rb.tail.toNat = r.pushed % (rb.capacity.toNat+1)
  holds : CyclicIndex.Holds rb.buf rb.tail.toNat r.last
  fits : r.stored < r.last.length
  few : r.stored ≤ r.pushed

namespace Mirrors
variable {std : StdVector} {rb after : RingBuffer} {r : Recent}

theorem count (h : Mirrors rb r) : r.entries.length = r.stored := by
  have fits := h.fits
  rw [Recent.entries,List.length_drop]
  omega

theorem head (h : Mirrors rb r) : rb.head.toNat = r.popped % (rb.capacity.toNat+1) := by
  have few := h.few
  have ahead : rb.tail.toNat = (rb.head.toNat+r.entries.length) % (rb.capacity.toNat+1) :=
    h.represents.stores.tail
  have total : r.pushed = r.popped+r.stored := by unfold Recent.popped; omega
  rw [h.tail,h.count,total] at ahead
  have same : r.popped ≡ rb.head.toNat [MOD rb.capacity.toNat+1] := Nat.ModEq.add_right_cancel' _ ahead
  rw [same,Nat.mod_eq_of_lt h.represents.admitted.head]

theorem made {capacity : SizeT} (construct : RingBuffer.construct std capacity = .ok rb)
    (noWrap : capacity.toNat+1 < 2^64) : Mirrors rb (Recent.fresh capacity.toNat) := by
  have start := (constructRefines construct noWrap).ring
  obtain ⟨rfl,_⟩ := RingBuffer.constructed construct
  have slots : (capacity+1).toNat = capacity.toNat+1 := start.admitted.modulus
  refine ⟨?_,by simp [Recent.fresh],by simp [Recent.fresh],?_,by simp [Recent.fresh],Nat.le_refl _⟩
  · simpa [Recent.entries,Recent.fresh] using start
  · intro i small
    simp only [Recent.fresh,List.length_replicate] at small
    have inside : i % (capacity.toNat+1) = i := Nat.mod_eq_of_lt small
    simp [Recent.fresh,slots,inside,small]

theorem consume (h : Mirrors rb r) {n : Nat} (enough : n ≤ r.stored)
    (represents : Represents after (r.entries.drop n)) (capacity : after.capacity = rb.capacity)
    (buf : after.buf = rb.buf) (tail : after.tail = rb.tail) : Mirrors after (r.consume n) := by
  have fits := h.fits
  have few := h.few
  have left : (r.consume n).entries = r.entries.drop n := by
    have start : r.last.length-(r.stored-n) = r.last.length-r.stored+n := by omega
    simp only [Recent.entries,Recent.consume,List.drop_drop,start]
  refine ⟨by rwa [left],?_,?_,?_,?_,?_⟩
  · rw [capacity]
    exact h.slots
  · rw [tail,capacity]
    exact h.tail
  · rw [buf,tail]
    exact h.holds
  · simp only [Recent.consume]
    omega
  · simp only [Recent.consume]
    omega

theorem log (h : Mirrors rb r) {v : CInt} (represents : Represents after (r.entries ++ [v]))
    (capacity : after.capacity = rb.capacity) (buf : after.buf = rb.buf.set rb.tail.toNat v)
    (tail : after.tail.toNat = (rb.tail.toNat+1) % (rb.capacity.toNat+1)) : Mirrors after (r.log v) := by
  have fits := h.fits
  have slots := h.slots
  have few := h.few
  have inside := h.represents.admitted.tail
  have room : r.entries.length+1 < r.last.length := by
    have most := represents.stores.fits
    rw [List.length_append,List.length_singleton] at most
    have same : after.exact.capacity = rb.capacity.toNat := congrArg UInt64.toNat capacity
    omega
  have stored := h.count
  have length : (r.last.drop 1 ++ [v]).length = r.last.length := by
    rw [List.length_append,List.length_drop,List.length_singleton]
    omega
  have joined : (r.log v).entries = r.entries ++ [v] := by
    have start : r.last.length-(r.stored+1)+1 = r.last.length-r.stored := by omega
    have short : r.last.length-(r.stored+1) ≤ (r.last.drop 1).length := by
      rw [List.length_drop]
      omega
    simp only [Recent.entries,Recent.log,length]
    rw [List.drop_append_of_le_length short,List.drop_drop,Nat.add_comm 1,start]
  have storage : rb.buf.length = rb.capacity.toNat+1 := h.represents.admitted.slots
  refine ⟨by rwa [joined],?_,?_,?_,?_,?_⟩
  · rw [capacity]
    exact length.trans slots
  · rw [tail,capacity,h.tail,Nat.mod_add_mod]
    rfl
  · have round := CyclicIndex.holdsRound (v := v) h.holds (by omega) (by omega)
    rwa [storage,← tail,← buf] at round
  · have grown : (r.log v).last.length = r.last.length := length
    rw [grown]
    simp only [Recent.log]
    omega
  · simp only [Recent.log]
    omega

theorem sampleAnswer (h : Mirrors rb r) (std : StdVector) (gen : Generator) (b : Nat) :
    (rb.exact.sampleIndices std gen b).map .indices = r.sample std gen b := by
  have count := h.count
  unfold Recent.sample
  by_cases nothing : r.stored = 0
  · have zero : rb.exact.size = 0 := by rw [h.represents.stores.size,count,nothing]
    rw [if_pos nothing,ExactRing.sampleIndices,if_pos zero]
    rfl
  · have some : r.entries ≠ [] := by
      intro none
      rw [none] at count
      exact nothing count.symm
    rw [if_neg nothing,h.represents.sampleIs some,count]
    by_cases long : std.maxWords < b
    · rw [if_pos long,if_pos long]
      rfl
    · have slots : (fun i => Represents.slot rb (gen.draw (r.stored-1) i))
          = fun i => (r.popped + gen.draw (r.stored-1) i) % r.last.length := by
        funext i
        rw [Represents.slot,h.head,h.slots,Nat.mod_add_mod]
      rw [if_neg long,if_neg long,slots]
      rfl

theorem exactAnswer (h : Mirrors rb r) (std : StdVector) (op : Op) :
    (op.exact std rb.exact).1 = (r.answer std op).1.map (valueOnSlots (rb.capacity.toNat+1)) := by
  have stores := h.represents.stores
  have count := h.count
  have slots := h.slots
  cases op with
  | push v =>
    have same : (rb.exact.push v).1 = (r.offer v).1 := by
      have capacity : rb.exact.capacity = rb.capacity.toNat := rfl
      rw [(stores.push v).1,BoundedQueue.offer,Recent.offer,count,capacity]
      by_cases room : r.stored < rb.capacity.toNat
      · rw [if_pos room,if_pos (by omega)]
      · rw [if_neg room,if_neg (by omega)]
    simp only [Op.exact,Recent.answer,same]
    rfl
  | pop outVal =>
    simp only [Op.exact,Recent.answer,(stores.pop outVal).1]
    rfl
  | advanceHead n => rfl
  | size =>
    simp only [Op.exact,Recent.answer,stores.size,count]
    rfl
  | empty =>
    have same : rb.exact.empty = decide (r.stored = 0) :=
      decide_eq_decide.mpr (by rw [stores.emptyIff,← List.length_eq_zero_iff,count])
    simp only [Op.exact,Recent.answer,same]
    rfl
  | sampleIndices gen b =>
    simp only [Op.exact,Recent.answer,h.sampleAnswer]
    unfold Recent.sample
    split <;> try rfl
    split <;> rfl
  | popView built n =>
    simp only [Op.exact,Recent.answer,stores.popViewIs,count]
    split
    · rfl
    split
    · rfl
    · have first : rb.exact.head = r.popped % (rb.capacity.toNat+1) := h.head
      have capacity : rb.exact.capacity = rb.capacity.toNat := rfl
      simp only [Recent.front,slots,first,capacity,Except.map,valueOnSlots]
      split <;> rfl

theorem called {op : Op} {t : Session RingBuffer SizeT} {result : Except Exception (Value SizeT)}
    (moved : FastReplay.step std ⟨rb,[]⟩ op = some t) (only : t.results = [] ++ [result]) :
    (ringMemory std).call rb op = some (result,t.ring) := by
  unfold FastReplay.step at moved
  simp only [ringMemory]
  split at moved
  · rename_i value ring run
    cases Option.some.inj moved
    cases (List.cons.inj only).1
    rw [run]
  · rename_i e ring run
    cases Option.some.inj moved
    cases (List.cons.inj only).1
    rw [run]
  · contradiction

theorem call (h : Mirrors rb r) (std : StdVector) {op : Op} (allowed : op.Allowed ⟨rb,[]⟩) :
    ∃ result after, (ringMemory std).call rb op = some (result,after) ∧
      result.map valueExact = (r.answer std op).1.map (valueOnSlots (rb.capacity.toNat+1)) ∧
      Mirrors after (r.answer std op).2 ∧ after.capacity = rb.capacity := by
  have count := h.count
  have slots := h.slots
  obtain ⟨t,result,moved,only,same,exactRing,_⟩ := h.represents.callExact (s := ⟨rb,[]⟩) allowed
  obtain ⟨t',result',moved',only',kept,capacity⟩ := h.represents.afterCall (s := ⟨rb,[]⟩) allowed
  cases moved.symm.trans moved'
  cases (List.cons.inj (only.symm.trans only')).1
  have capacity : t.ring.capacity = rb.capacity := capacity
  have answer := same.trans (h.exactAnswer std op)
  have writes := exactWrites std rb.exact op
  rw [← remainingExact,answer] at kept
  rw [h.exactAnswer std op,← exactRing] at writes
  refine ⟨result,t.ring,called moved only,answer,?_,capacity⟩
  -- a call that is refused, or that only asks, leaves the log as it is
  have unchanged (stays : Represents t.ring r.entries)
      (unwritten : t.ring.exact.buf = rb.buf ∧ t.ring.exact.tail = rb.tail.toNat) : Mirrors t.ring r :=
    h.consume (Nat.zero_le _) stays capacity unwritten.1 (UInt64.toNat_inj.mp unwritten.2)
  cases op with
  | push v =>
    simp only [Recent.answer,Recent.offer] at kept writes ⊢
    split at kept
    · rename_i room
      rw [if_pos room] at writes ⊢
      exact h.log kept capacity writes.1 writes.2
    · rename_i full
      rw [if_neg full] at writes ⊢
      exact unchanged kept writes
  | pop outVal =>
    cases front : r.entries with
    | nil =>
      rw [front,List.length_nil] at count
      have none : r.consume 1 = r := by
        obtain ⟨last,stored,pushed⟩ := r
        cases count
        rfl
      simp only [Recent.answer,front,none] at kept ⊢
      exact unchanged (by rw [front]; exact kept) writes
    | cons v rest =>
      rw [front,List.length_cons] at count
      simp only [Recent.answer,front] at kept ⊢
      exact h.consume (by omega) (by rw [front]; exact kept) capacity writes.1
        (UInt64.toNat_inj.mp writes.2)
  | advanceHead n =>
    have enough := allowedCount (s := ⟨rb,[]⟩) h.represents allowed
    exact h.consume (by omega) kept capacity writes.1 (UInt64.toNat_inj.mp writes.2)
  | size => exact unchanged kept writes
  | empty => exact unchanged kept writes
  | sampleIndices gen b =>
    simp only [Recent.answer] at kept writes ⊢
    cases drawn : r.sample std gen b.toNat with
    | error e =>
      rw [drawn] at kept writes
      exact unchanged kept writes
    | ok value =>
      rw [drawn] at kept writes
      exact unchanged kept writes
  | popView built n =>
    simp only [Recent.answer] at kept writes ⊢
    split at kept
    · rename_i short
      rw [if_pos short] at writes ⊢
      exact unchanged kept writes
    rename_i enough
    rw [if_neg enough] at writes ⊢
    cases built with
    | false => exact unchanged kept writes
    | true => exact h.consume (by omega) kept capacity writes.1 (UInt64.toNat_inj.mp writes.2)

theorem placeBelow (h : Mirrors rb r) (position : Nat) : r.place position < r.last.length := by
  have slots := h.slots
  exact CyclicIndex.gapBelow (by omega) _ _

theorem gapPlace (h : Mirrors rb r) (position : Nat) :
    CyclicIndex.gap (rb.capacity.toNat+1) rb.tail.toNat (position % (rb.capacity.toNat+1))
      = r.place position := by
  rw [Recent.place,h.slots,h.tail]

theorem load (h : Mirrors rb r) (position : Nat) :
    rb.buf[position % (rb.capacity.toNat+1)]? = r.last[r.place position]? := by
  have inside := h.represents.admitted.tail
  have read := h.holds (r.place position) (h.placeBelow position)
  have storage : rb.buf.length = rb.capacity.toNat+1 := h.represents.admitted.slots
  rw [storage,← h.gapPlace position,CyclicIndex.gapReaches (by omega),Nat.mod_mod] at read
  rw [← h.gapPlace position]
  exact read

theorem store (h : Mirrors rb r) (position : Nat) (v : CInt) :
    Mirrors { rb with buf := rb.buf.set (position % (rb.capacity.toNat+1)) v }
      { r with last := r.last.set (r.place position) v } := by
  have slots := h.slots
  have fits := h.fits
  have few := h.few
  have inside := h.represents.admitted.tail
  have storage : rb.buf.length = rb.capacity.toNat+1 := h.represents.admitted.slots
  have below : position % (rb.capacity.toNat+1) < rb.buf.length := by
    rw [storage]
    exact Nat.mod_lt _ (Nat.succ_pos _)
  have holds := CyclicIndex.holdsSet (v := v) h.holds (by omega) (by omega) below
  rw [storage,h.gapPlace position] at holds
  have live := CyclicIndex.holdsDrop (n := r.last.length-r.stored) holds
  have start : (rb.tail.toNat+(r.last.length-r.stored)) % (rb.capacity.toNat+1) = rb.head.toNat := by
    have shift : r.pushed+(r.last.length-r.stored) = r.popped+(rb.capacity.toNat+1) := by
      unfold Recent.popped
      omega
    rw [h.tail,Nat.mod_add_mod,shift,Nat.add_mod_right,h.head]
  rw [List.length_set,storage,start] at live
  have count : ((r.last.set (r.place position) v).drop (r.last.length-r.stored)).length
      = r.entries.length := by
    rw [List.length_drop,List.length_set,h.count]
    omega
  have stores := h.represents.stores
  have admitted := h.represents.admitted
  refine ⟨⟨⟨by simpa using admitted.slots,admitted.small,admitted.head,admitted.tail⟩,?_⟩,?_,h.tail,
    holds,?_,few⟩
  · simp only [Recent.entries,List.length_set]
    refine ⟨List.length_set.trans stores.slots,stores.head,?_,?_,live⟩
    · rw [count]
      exact stores.tail
    · rw [count]
      exact stores.fits
  · rw [List.length_set]
    exact slots
  · rw [List.length_set]
    exact fits

end Mirrors

theorem arraysExact (result : Except Exception (Value SizeT)) :
    Value.arrays (result.map valueExact) = (Value.arrays result).map RingBuffer.arrayExact := by
  cases result with
  | error e => rfl
  | ok value => cases value <;> rfl

theorem arraysOnSlots (m : Nat) (result : Except Exception (Value Nat)) :
    Value.arrays (result.map (valueOnSlots m)) = (Value.arrays result).map (onSlots m) := by
  cases result with
  | error e => rfl
  | ok value => cases value <;> rfl

namespace Recent
variable {r : Recent} {std : StdVector} {op : Op} {position n : Nat}

theorem arraysTaken (few : r.stored ≤ r.pushed)
    (mem : .view position n ∈ Value.arrays (r.answer std op).1) :
    position % r.last.length + n ≤ r.last.length ∧ position+n ≤ (r.answer std op).2.popped := by
  cases op with
  | popView built count =>
    simp only [answer] at mem ⊢
    split at mem
    · exact absurd mem List.not_mem_nil
    rename_i enough
    rw [if_neg enough]
    cases built with
    | false => exact absurd mem List.not_mem_nil
    | true =>
      simp only [Value.arrays,front,Bool.not_true,Bool.false_eq_true,if_false,
        List.mem_singleton] at mem ⊢
      split at mem
      · rename_i inside
        cases PyArray.view.inj mem with
        | intro first last =>
          subst first last
          refine ⟨inside,?_⟩
          simp only [popped,consume]
          omega
      · contradiction
  | sampleIndices gen b =>
    simp only [answer,sample] at mem
    split at mem
    · exact absurd mem List.not_mem_nil
    split at mem <;> exact absurd mem List.not_mem_nil
  | _ => exact absurd mem List.not_mem_nil

theorem poppedGrows (r : Recent) (std : StdVector) (op : Op) :
    r.popped ≤ (r.answer std op).2.popped := by
  cases op with
  | push v =>
    simp only [answer,offer]
    split
    · simp only [popped,log]
      omega
    · exact Nat.le_refl _
  | pop outVal =>
    simp only [answer,popped,consume]
    omega
  | advanceHead count =>
    simp only [answer,popped,consume]
    omega
  | popView built count =>
    simp only [answer]
    split
    · exact Nat.le_refl _
    split
    · exact Nat.le_refl _
    · simp only [popped,consume]
      omega
  | _ => exact Nat.le_refl _

/- The place of a position shows the one of its laps that was pushed last. An entry
is written exactly when that lap is still in the queue. -/
theorem storeEntries (fits : r.stored < r.last.length) (few : r.stored ≤ r.pushed) (position lap : Nat)
    (after : r.popped ≤ position+r.last.length*lap)
    (before : position+r.last.length*lap < r.popped+r.last.length) (v : CInt) :
    ({ r with last := r.last.set (r.place position) v } : Recent).entries
      = r.entries.set (position+r.last.length*lap-r.popped) v := by
  have total : r.pushed = r.popped+r.stored := by unfold popped; omega
  have lapped : position % r.last.length = (position+r.last.length*lap) % r.last.length :=
    (Nat.add_mul_mod_self_left _ _ _).symm
  have count : (r.last.drop (r.last.length-r.stored)).length = r.stored := by
    rw [List.length_drop]
    omega
  simp only [entries,List.length_set,List.drop_set]
  rcases Nat.lt_or_ge (position+r.last.length*lap-r.popped) r.stored with live | gone
  · have here : r.place position
        = position+r.last.length*lap-r.popped+(r.last.length-r.stored) := by
      rw [place,lapped,CyclicIndex.gapCounters (by omega)]
      have round : r.pushed+(position+r.last.length*lap-r.popped+(r.last.length-r.stored))
          = position+r.last.length*lap+r.last.length := by omega
      rw [round,Nat.add_mod_right]
    rw [here,if_neg (by omega),Nat.add_sub_cancel]
  · have here : r.place position = position+r.last.length*lap-r.popped-r.stored := by
      rw [place,lapped,CyclicIndex.gapCounters (by omega)]
      have round : r.pushed+(position+r.last.length*lap-r.popped-r.stored)
          = position+r.last.length*lap := by omega
      rw [round]
    rw [here,if_pos (by omega),List.set_eq_of_length_le (by omega)]

end Recent

structure Aligned (capacity : SizeT) (s : Script RingBuffer SizeT) (t : Script Recent Nat) : Prop where
  memory : Mirrors s.memory t.memory
  made : s.memory.capacity = capacity
  held : s.held.map RingBuffer.arrayExact = t.held.map (onSlots (capacity.toNat+1))
  inside : ∀ position n, .view position n ∈ t.held →
    position % (capacity.toNat+1) + n ≤ capacity.toNat+1
  taken : ∀ position n, .view position n ∈ t.held →
    position = 0 ∧ n = capacity.toNat+1 ∨ position+n ≤ t.memory.popped
  seen : s.seen.map Seen.exact = t.seen.map (Seen.onSlots (capacity.toNat+1))

namespace Aligned
variable {std : StdVector} {capacity : SizeT} {s : Script RingBuffer SizeT} {t : Script Recent Nat}
  {array i : Nat}

theorem slots (h : Aligned capacity s t) : t.memory.last.length = capacity.toNat+1 := by
  rw [← h.made]
  exact h.memory.slots

theorem found (h : Aligned capacity s t) (handed : array < s.held.length) :
    ∃ a b, s.held[array]? = some a ∧ t.held[array]? = some b ∧
      RingBuffer.arrayExact a = onSlots (capacity.toNat+1) b := by
  have same := congrArg (·[array]?) h.held
  simp only [List.getElem?_map,List.getElem?_eq_getElem handed,Option.map_some] at same
  obtain ⟨b,there,shown⟩ := Option.map_eq_some_iff.mp same.symm
  exact ⟨_,b,List.getElem?_eq_getElem handed,there,shown.symm⟩

theorem behind (h : Aligned capacity s t) {b : PyArray Nat} (there : t.held[array]? = some b) :
    ∃ a, s.held[array]? = some a ∧ RingBuffer.arrayExact a = onSlots (capacity.toNat+1) b := by
  have same := congrArg (·[array]?) h.held
  simp only [List.getElem?_map,there,Option.map_some] at same
  exact Option.map_eq_some_iff.mp same

theorem sameLength (std : StdVector) {m : Nat} {a : PyArray SizeT} {b : PyArray Nat}
    (same : RingBuffer.arrayExact a = onSlots m b) :
    (ringMemory std).length a = (Recent.memory std).length b := by
  cases a with
  | view first n =>
    cases b with
    | view position count => exact (PyArray.view.inj same).2
    | copied values => contradiction
  | copied values =>
    cases b with
    | view position count => contradiction
    | copied values' => exact congrArg List.length (PyArray.copied.inj same)

theorem viewPosition (h : Aligned capacity s t) {first : SizeT} {position n : Nat}
    (shown : .view position n ∈ t.held) (slot : first.toNat = position % (capacity.toNat+1))
    (small : i < n) : first.toNat+i = (position+i) % (capacity.toNat+1) := by
  have inside := h.inside position n shown
  rw [← Nat.mod_add_mod,← slot,Nat.mod_eq_of_lt (by omega)]

theorem getItem (h : Aligned capacity s t) {a : PyArray SizeT} {b : PyArray Nat}
    (mem : b ∈ t.held) (same : RingBuffer.arrayExact a = onSlots (capacity.toNat+1) b)
    (small : i < (ringMemory std).length a) :
    ∃ v, (ringMemory std).getItem s.memory a i = some v ∧
      (Recent.memory std).getItem t.memory b i = some v := by
  rw [sameLength std same] at small
  cases a with
  | view first n =>
    cases b with
    | copied values => contradiction
    | view position count =>
      have read := h.memory.load (position+i)
      rw [h.made,← h.viewPosition mem (PyArray.view.inj same).1 small] at read
      have kept := List.getElem?_eq_getElem (h.memory.placeBelow (position+i))
      exact ⟨_,read.trans kept,kept⟩
  | copied values =>
    cases b with
    | view position count => contradiction
    | copied values' =>
      cases PyArray.copied.inj same
      exact ⟨_,List.getElem?_eq_getElem small,List.getElem?_eq_getElem small⟩

theorem setItem (h : Aligned capacity s t) {a : PyArray SizeT} {b : PyArray Nat}
    (mem : b ∈ t.held) (same : RingBuffer.arrayExact a = onSlots (capacity.toNat+1) b)
    (small : i < (ringMemory std).length a) (v : CInt) :
    Mirrors ((ringMemory std).setItem s.memory a i v).1
        ((Recent.memory std).setItem t.memory b i v).1 ∧
      ((ringMemory std).setItem s.memory a i v).1.capacity = capacity ∧
      RingBuffer.arrayExact ((ringMemory std).setItem s.memory a i v).2
        = onSlots (capacity.toNat+1) ((Recent.memory std).setItem t.memory b i v).2 := by
  rw [sameLength std same] at small
  cases a with
  | view first n =>
    cases b with
    | copied values => contradiction
    | view position count =>
      have slot : (position+i) % (s.memory.capacity.toNat+1) = first.toNat+i := by
        rw [h.made]
        exact (h.viewPosition mem (PyArray.view.inj same).1 small).symm
      have written := h.memory.store (position+i) v
      rw [slot] at written
      exact ⟨written,h.made,same⟩
  | copied values =>
    cases b with
    | view position count => contradiction
    | copied values' =>
      cases PyArray.copied.inj same
      exact ⟨h.memory,h.made,rfl⟩

theorem setKept (b : PyArray Nat) (i : Nat) (v : CInt) {position n : Nat}
    (mem : .view position n ∈ t.held.set array ((Recent.memory std).setItem t.memory b i v).2)
    (there : t.held[array]? = some b) : .view position n ∈ t.held := by
  cases b with
  | view first count =>
    rcases List.mem_or_eq_of_mem_set mem with old | new
    · exact old
    · rw [new]
      exact List.mem_of_getElem? there
  | copied values =>
    rcases List.mem_or_eq_of_mem_set mem with old | new
    · exact old
    · contradiction

theorem looked (h : Aligned capacity s t) {seen : Seen SizeT} {logged : Seen Nat}
    (same : seen.exact = logged.onSlots (capacity.toNat+1)) :
    Aligned capacity ⟨s.memory,s.held,s.seen ++ [seen]⟩ ⟨t.memory,t.held,t.seen ++ [logged]⟩ :=
  ⟨h.memory,h.made,h.held,h.inside,h.taken,by
    simp only [List.map_append,List.map_singleton,h.seen,same]⟩

theorem callStep (std : StdVector) (h : Aligned capacity s t) {op : Op}
    (allowed : op.Allowed ⟨s.memory,[]⟩) :
    ∃ s' t', (ringMemory std).step s (.call op) = some s' ∧
      (Recent.memory std).step t (.call op) = some t' ∧ Aligned capacity s' t' := by
  obtain ⟨result,after,ran,same,mirrors,capacity⟩ := h.memory.call std allowed
  have answered : (Recent.memory std).call t.memory op = some (t.memory.answer std op) := rfl
  rw [h.made] at same
  refine ⟨_,_,by simp only [Memory.step,ran]; rfl,by simp only [Memory.step,answered]; rfl,?_⟩
  refine ⟨mirrors,capacity.trans h.made,?_,?_,?_,?_⟩
  · rw [List.map_append,List.map_append,h.held,← arraysExact,same,arraysOnSlots]
  · intro position n mem
    rcases List.mem_append.mp mem with old | new
    · exact h.inside position n old
    · rw [← h.slots]
      exact (Recent.arraysTaken h.memory.few new).1
  · intro position n mem
    rcases List.mem_append.mp mem with old | new
    · have grown := t.memory.poppedGrows std op
      rcases h.taken position n old with whole | out
      · exact .inl whole
      · exact .inr (out.trans grown)
    · exact .inr (Recent.arraysTaken h.memory.few new).2
  · simp only [List.map_append,h.seen,List.map_singleton,Seen.exact,Seen.onSlots,same]

theorem asarrayStep (std : StdVector) (h : Aligned capacity s t) :
    ∃ s' t', (ringMemory std).step s .asarray = some s' ∧
      (Recent.memory std).step t .asarray = some t' ∧ Aligned capacity s' t' := by
  have exposed : (ringMemory std).asarray s.memory = some (.view 0 (capacity+1)) := by
    simp only [ringMemory,h.memory.represents.asarrayRun,h.made]
  have logged : (Recent.memory std).asarray t.memory = some (.view 0 (capacity.toNat+1)) := by
    simp only [Recent.memory,h.slots]
  have modulus : (capacity+1).toNat = capacity.toNat+1 := by
    rw [← h.made]
    exact h.memory.represents.admitted.modulus
  have same : RingBuffer.arrayExact (.view 0 (capacity+1))
      = onSlots (capacity.toNat+1) (.view 0 (capacity.toNat+1)) := by
    simp [RingBuffer.arrayExact,onSlots,modulus]
  refine ⟨_,_,by simp only [Memory.step,exposed]; rfl,by simp only [Memory.step,logged]; rfl,?_⟩
  refine ⟨h.memory,h.made,?_,?_,?_,?_⟩
  · rw [List.map_append,List.map_append,h.held,List.map_singleton,List.map_singleton,same]
  · intro position n mem
    rcases List.mem_append.mp mem with old | new
    · exact h.inside position n old
    · cases List.mem_singleton.mp new
      simp
  · intro position n mem
    rcases List.mem_append.mp mem with old | new
    · exact h.taken position n old
    · cases List.mem_singleton.mp new
      exact .inl ⟨rfl,rfl⟩
  · simp only [List.map_append,h.seen,List.map_singleton,Seen.exact,Seen.onSlots,same]

theorem getItemStep (std : StdVector) (h : Aligned capacity s t) (handed : array < s.held.length)
    (index : Int) :
    ∃ s' t', (ringMemory std).step s (.getItem array index) = some s' ∧
      (Recent.memory std).step t (.getItem array index) = some t' ∧ Aligned capacity s' t' := by
  obtain ⟨a,b,here,there,same⟩ := h.found handed
  have length := sameLength std same
  cases place : numpyPlace ((ringMemory std).length a) index with
  | none =>
    exact ⟨_,_,(Memory.refused here place).1,(Memory.refused there (length ▸ place)).1,h.looked rfl⟩
  | some i =>
    obtain ⟨v,ring,log⟩ := h.getItem (List.mem_of_getElem? there) same (numpyPlaceBelow place)
    exact ⟨_,_,Memory.got here place ring,Memory.got there (length ▸ place) log,h.looked rfl⟩

theorem setItemStep (std : StdVector) (h : Aligned capacity s t) (handed : array < s.held.length)
    (index : Int) (v : CInt) :
    ∃ s' t', (ringMemory std).step s (.setItem array index v) = some s' ∧
      (Recent.memory std).step t (.setItem array index v) = some t' ∧ Aligned capacity s' t' := by
  obtain ⟨a,b,here,there,same⟩ := h.found handed
  have length := sameLength std same
  have mem := List.mem_of_getElem? there
  cases place : numpyPlace ((ringMemory std).length a) index with
  | none =>
    exact ⟨_,_,(Memory.refused here place).2 v,(Memory.refused there (length ▸ place)).2 v,
      h.looked rfl⟩
  | some i =>
    obtain ⟨old,ring,log⟩ := h.getItem mem same (numpyPlaceBelow place)
    obtain ⟨mirrors,made,shown⟩ := h.setItem mem same (numpyPlaceBelow place) v
    have unmoved : ((Recent.memory std).setItem t.memory b i v).1.popped = t.memory.popped := by
      cases b <;> rfl
    refine ⟨_,_,Memory.written here place ring v,Memory.written there (length ▸ place) log v,?_⟩
    refine ⟨mirrors,made,?_,?_,?_,?_⟩
    · rw [List.map_set,List.map_set,h.held,shown]
    · intro position n kept
      exact h.inside position n (setKept b i v kept there)
    · intro position n kept
      dsimp only
      rw [unmoved]
      exact h.taken position n (setKept b i v kept there)
    · simp only [List.map_append,h.seen,List.map_singleton,Seen.exact,Seen.onSlots]

theorem step (std : StdVector) (h : Aligned capacity s t) {use : Use} (allowed : use.Allowed s) :
    ∃ s' t', (ringMemory std).step s use = some s' ∧ (Recent.memory std).step t use = some t' ∧
      Aligned capacity s' t' := by
  cases use with
  | call op => exact h.callStep std allowed
  | asarray => exact h.asarrayStep std
  | getItem array index => exact h.getItemStep std allowed index
  | setItem array index v => exact h.setItemStep std allowed index v

end Aligned
section
variable {std : StdVector} {capacity : SizeT} {rb : RingBuffer} {uses : List Use}

theorem alignedRun (made : RingBuffer.construct std capacity = .ok rb)
    (noWrap : capacity.toNat+1 < 2^64)
    (allowed : Meets (ringMemory std).step Use.Allowed ⟨rb,[],[]⟩ uses) :
    ∃ s t, exec (ringMemory std).step ⟨rb,[],[]⟩ uses = some s ∧
      exec (Recent.memory std).step ⟨Recent.fresh capacity.toNat,[],[]⟩ uses = some t ∧
      Aligned capacity s t := by
  have fresh := (RingBuffer.constructed made).1
  have start : Aligned capacity ⟨rb,[],[]⟩ ⟨Recent.fresh capacity.toNat,[],[]⟩ :=
    ⟨Mirrors.made made noWrap,by rw [fresh],rfl,by simp,by simp,rfl⟩
  exact simulated (fun _ _ _ related permitted => related.step std permitted) start allowed

end

theorem exposedMemory (std : StdVector) (capacity : SizeT) (rb : RingBuffer)
    (made : RingBuffer.construct std capacity = .ok rb) (noWrap : capacity.toNat+1 < 2^64)
    (uses : List Use) (allowed : Meets (ringMemory std).step Use.Allowed ⟨rb,[],[]⟩ uses) :
    ∃ s t, exec (ringMemory std).step ⟨rb,[],[]⟩ uses = some s ∧
      exec (Recent.memory std).step ⟨Recent.fresh capacity.toNat,[],[]⟩ uses = some t ∧
      s.seen.map Seen.exact = t.seen.map (Seen.onSlots (capacity.toNat+1)) ∧
      s.memory.held = t.memory.entries ∧
      ∀ slot, slot < capacity.toNat+1 → s.memory.buf[slot]? = t.memory.last[t.memory.place slot]? := by
  obtain ⟨s,t,run,logged,aligned⟩ := alignedRun made noWrap allowed
  refine ⟨s,t,run,logged,aligned.seen,aligned.memory.represents.held,fun slot small => ?_⟩
  have read := aligned.memory.load slot
  rwa [aligned.made,Nat.mod_eq_of_lt small] at read

theorem exposedMemoryAtTwo : ∃ s t,
    exec (ringMemory StdVector.small).step ⟨⟨2,[0,0,0],0,0⟩,[],[]⟩
      [.call (.push 5),.call (.push 6),.call (.popView true 1),.asarray,.setItem 1 1 9,
        .call (.push 7),.call (.pop (some 0)),.call (.push 8),.getItem 0 (-1)] = some s ∧
    exec (Recent.memory StdVector.small).step ⟨Recent.fresh 2,[],[]⟩
      [.call (.push 5),.call (.push 6),.call (.popView true 1),.asarray,.setItem 1 1 9,
        .call (.push 7),.call (.pop (some 0)),.call (.push 8),.getItem 0 (-1)] = some t ∧
    s.seen.map Seen.exact = t.seen.map (Seen.onSlots 3) ∧ s.memory.held = t.memory.entries := by
  have allowed : Meets (ringMemory StdVector.small).step Use.Allowed ⟨⟨2,[0,0,0],0,0⟩,[],[]⟩
      [.call (.push 5),.call (.push 6),.call (.popView true 1),.asarray,.setItem 1 1 9,
        .call (.push 7),.call (.pop (some 0)),.call (.push 8),.getItem 0 (-1)] := by
    refine ⟨trivial,?_⟩
    rintro _ ⟨⟩
    refine ⟨trivial,?_⟩
    rintro _ ⟨⟩
    refine ⟨trivial,?_⟩
    rintro _ ⟨⟩
    refine ⟨trivial,?_⟩
    rintro _ ⟨⟩
    refine ⟨Nat.lt_succ_self 1,?_⟩
    rintro _ ⟨⟩
    refine ⟨trivial,?_⟩
    rintro _ ⟨⟩
    refine ⟨trivial,?_⟩
    rintro _ ⟨⟩
    refine ⟨trivial,?_⟩
    rintro _ ⟨⟩
    exact ⟨Nat.zero_lt_two,fun _ _ => trivial⟩
  obtain ⟨s,t,run,logged,seen,held,_⟩ :=
    exposedMemory StdVector.small 2 ⟨2,[0,0,0],0,0⟩ (by decide) (by decide) _ allowed
  exact ⟨s,t,run,logged,seen,held⟩

theorem viewWrites (std : StdVector) (capacity : SizeT) (rb : RingBuffer)
    (made : RingBuffer.construct std capacity = .ok rb) (noWrap : capacity.toNat+1 < 2^64)
    (uses : List Use) (allowed : Meets (ringMemory std).step Use.Allowed ⟨rb,[],[]⟩ uses)
    (s : Script RingBuffer SizeT) (run : exec (ringMemory std).step ⟨rb,[],[]⟩ uses = some s)
    (t : Script Recent Nat)
    (logged : exec (Recent.memory std).step ⟨Recent.fresh capacity.toNat,[],[]⟩ uses = some t)
    (array i : Nat) (index : Int) (v : CInt) :
    (∀ position n, t.held[array]? = some (.view position n) → numpyPlace n index = some i →
      ∃ u, (ringMemory std).step s (.setItem array index v) = some u ∧
        u.memory.head = s.memory.head ∧ u.memory.tail = s.memory.tail ∧
        (∀ lap, t.memory.popped ≤ position+i+(capacity.toNat+1)*lap →
          position+i+(capacity.toNat+1)*lap < t.memory.popped+(capacity.toNat+1) →
          u.memory.held
            = s.memory.held.set (position+i+(capacity.toNat+1)*lap-t.memory.popped) v) ∧
        (n ≤ capacity.toNat → t.memory.pushed ≤ position+i+(capacity.toNat+1) →
          u.memory.held = s.memory.held)) ∧
    ∀ values, t.held[array]? = some (.copied values) → numpyPlace values.length index = some i →
      ∃ u, (ringMemory std).step s (.setItem array index v) = some u ∧ u.memory = s.memory := by
  obtain ⟨s',t',run',logged',aligned⟩ := alignedRun made noWrap allowed
  cases run.symm.trans run'
  cases logged.symm.trans logged'
  have stores := aligned.memory.represents.held
  constructor
  · intro position n there place
    obtain ⟨a,here,same⟩ := aligned.behind there
    have length : (ringMemory std).length a = n := Aligned.sameLength std same
    have mem := List.mem_of_getElem? there
    have small : i < (ringMemory std).length a := by
      rw [length]
      exact numpyPlaceBelow place
    obtain ⟨old,ring,_⟩ := aligned.getItem mem same small
    obtain ⟨mirrors,_,_⟩ := aligned.setItem mem same small v
    have moved := Memory.written here (by rwa [length]) ring v
    cases a with
    | copied values => contradiction
    | view first count =>
      have later : ∀ lap, t.memory.popped ≤ position+i+(capacity.toNat+1)*lap →
          position+i+(capacity.toNat+1)*lap < t.memory.popped+(capacity.toNat+1) →
          RingBuffer.held { s.memory with buf := s.memory.buf.set (first.toNat+i) v }
            = s.memory.held.set (position+i+(capacity.toNat+1)*lap-t.memory.popped) v := by
        intro lap after before
        have lapped := Recent.storeEntries aligned.memory.fits aligned.memory.few (position+i) lap
        rw [aligned.slots] at lapped
        rw [stores,← lapped after before v]
        exact mirrors.represents.held
      refine ⟨_,moved,rfl,rfl,later,?_⟩
      intro taken early
      have count := aligned.memory.count
      have few := aligned.memory.few
      have total : t.memory.pushed = t.memory.popped+t.memory.stored := by unfold Recent.popped; omega
      have gone : position+n ≤ t.memory.popped := by
        rcases aligned.taken position n mem with whole | out
        · omega
        · exact out
      have below := numpyPlaceBelow place
      have past : s.memory.held.length ≤ position+i+(capacity.toNat+1)*1-t.memory.popped := by
        rw [stores,count]
        omega
      exact (later 1 (by omega) (by omega)).trans (List.set_eq_of_length_le past)
  · intro values there place
    obtain ⟨a,here,same⟩ := aligned.behind there
    cases a with
    | view first count => contradiction
    | copied values' =>
      cases PyArray.copied.inj same
      have small := numpyPlaceBelow place
      exact ⟨_,Memory.written here place (List.getElem?_eq_getElem small) v,rfl⟩

theorem viewWritesAtTwo :
    ∃ u, (ringMemory StdVector.small).step
        ⟨⟨2,[5,6,0],1,2⟩,[.view 0 1],
          [.returned (.ok (.flag true)),.returned (.ok (.flag true)),
            .returned (.ok (.array (.view 0 1)))]⟩
        (.setItem 0 0 9) = some u ∧ u.memory.held = [6] := by
  have allowed : Meets (ringMemory StdVector.small).step Use.Allowed ⟨⟨2,[0,0,0],0,0⟩,[],[]⟩
      [.call (.push 5),.call (.push 6),.call (.popView true 1)] := by
    refine ⟨trivial,?_⟩
    rintro _ ⟨⟩
    refine ⟨trivial,?_⟩
    rintro _ ⟨⟩
    exact ⟨trivial,fun _ _ => trivial⟩
  obtain ⟨u,moved,_,_,_,unseen⟩ := (viewWrites StdVector.small 2 ⟨2,[0,0,0],0,0⟩ (by decide) (by decide)
    _ allowed _ rfl _ rfl 0 0 0 9).1 0 1 rfl rfl
  exact ⟨u,moved,unseen (by decide) (by decide)⟩

end FastReplay
