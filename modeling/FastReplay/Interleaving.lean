import FastReplay.StoreHistory
import FastReplay.ExactRing
import FastReplay.GuardedRun
import FastReplay.StaleReads

/-! The same two threads under sequential consistency: every load returns the
latest store. The consumer pops, or calls pop_view of the Python binding and
reads the returned array entry by entry before its next call. -/
namespace FastReplay.Threads
open GuardedRun
open Stale (Producer)

inductive Consumer where
  | idle
  | loadedHead (outVal : Option CInt) (curHead : Nat)
  | notEmpty (outVal : Option CInt) (curHead : Nat)
  | taken (curHead : Nat) (out : Option CInt)
  | sizeTail (n t : Nat)
  | sized (n : Nat)
  | located (n currentHead : Nat)
  | contiguous (n currentHead : Nat)
  | copying (n currentHead : Nat) (dest : List CInt)
  | built (n : Nat) (array : PyArray Nat)
  | advancing (n cur : Nat) (array : PyArray Nat)
  | reading (n : Nat) (array : PyArray Nat) (i : Nat)
  deriving DecidableEq, Repr

structure State where
  ring : ExactRing
  producer : Producer
  consumer : Consumer
  pushed : List CInt
  consumed : Nat
  received : List (Option CInt)
  deriving DecidableEq, Repr

def init (capacity : Nat) : State := ⟨ExactRing.construct capacity,.idle,.idle,[],0,[]⟩

inductive Action where
  | push (value : CInt)
  | produce
  | pop (outVal : Option CInt)
  | popView (n : Nat)
  | consume
  deriving DecidableEq, Repr

def slots (s : State) : Nat := s.ring.capacity + 1

def beginPush (s : State) (value : CInt) : Option State := match s.producer with
  | .idle =>
    some { s with producer := .loadedTail value s.ring.tail ((s.ring.tail+1) % slots s) }
  | _ => none

def produce (s : State) : Option State := match s.producer with
  | .idle => none
  | .loadedTail value curTail nextTail => some { s with
      producer := if nextTail = s.ring.head then .idle else .notFull value curTail nextTail }
  | .notFull value curTail nextTail => some { s with
      ring := { s.ring with buf := s.ring.buf.set curTail value }
      producer := .written value curTail nextTail }
  | .written value _ nextTail => some { s with
      ring := { s.ring with tail := nextTail }
      pushed := s.pushed ++ [value]
      producer := .idle }

def release (s : State) (head n : Nat) (received : List (Option CInt)) (consumer : Consumer) : State :=
  { s with
    ring := { s.ring with head := head }
    consumed := s.consumed + n
    received := received
    consumer := consumer }

def entry (r : ExactRing) (i : Nat) : PyArray Nat → Option CInt
  | .view start _ => r.buf[start+i]?
  | .copied values => values[i]?

def consume (s : State) : Option State := match s.consumer with
  | .idle => none
  | .loadedHead outVal curHead => some { s with
      consumer := if curHead = s.ring.tail then .idle else .notEmpty outVal curHead }
  | .notEmpty (some _) curHead => do
      let value ← s.ring.buf[curHead]?
      some { s with consumer := .taken curHead (some value) }
  | .notEmpty none curHead =>
      some (release s ((curHead+1) % slots s) 1 (s.received ++ [none]) .idle)
  | .taken curHead out =>
      some (release s ((curHead+1) % slots s) 1 (s.received ++ [out]) .idle)
  | .sizeTail n t => some { s with
      consumer := if ExactRing.sizeFrom s.ring.capacity t s.ring.head < n then .idle else .sized n }
  | .sized n => some { s with consumer := .located n s.ring.head }
  | .located n currentHead => some { s with
      consumer := if currentHead + n ≤ slots s then .contiguous n currentHead
        else .copying n currentHead [] }
  | .contiguous n currentHead => some { s with consumer := .built n (.view currentHead n) }
  | .copying n currentHead dest => do
      -- the first memcpy runs to the last slot, the second from slot 0
      let firstChunk := slots s - currentHead
      let value ← s.ring.buf[if dest.length < firstChunk then currentHead + dest.length
        else dest.length - firstChunk]?
      some { s with
        consumer := if dest.length + 1 = n then .built n (.copied (dest ++ [value]))
          else .copying n currentHead (dest ++ [value]) }
  | .built n array => some { s with consumer := .advancing n s.ring.head array }
  | .advancing n cur array =>
      some (release s ((cur+n) % slots s) n s.received
        (if n = 0 then .idle else .reading n array 0))
  | .reading n array i => do
      let value ← entry s.ring i array
      some { s with
        received := s.received ++ [some value]
        consumer := if i + 1 = n then .idle else .reading n array (i+1) }

def beginCall (s : State) (call : Consumer) : Option State := match s.consumer with
  | .idle => some { s with consumer := call }
  | _ => none

def step (s : State) : Action → Option State
  | .push value => beginPush s value
  | .produce => produce s
  | .pop outVal => beginCall s (.loadedHead outVal s.ring.head)
  | .popView n => beginCall s (.sizeTail n s.ring.tail)
  | .consume => consume s

def ProducerAt (s : State) : Prop := match s.producer with
  | .idle => True
  | .loadedTail _ curTail nextTail =>
      curTail = s.pushed.length % slots s ∧ nextTail = (s.pushed.length+1) % slots s
  | .notFull _ curTail nextTail =>
      curTail = s.pushed.length % slots s ∧ nextTail = (s.pushed.length+1) % slots s ∧
      s.pushed.length < s.consumed+s.ring.capacity
  | .written value curTail nextTail =>
      curTail = s.pushed.length % slots s ∧ nextTail = (s.pushed.length+1) % slots s ∧
      s.pushed.length < s.consumed+s.ring.capacity ∧ s.ring.buf[curTail]? = some value

/- The array lists the n values published from position first on. A view does so
only as long as nobody overwrites its slots. -/
def ArrayAt (s : State) (first n : Nat) : PyArray Nat → Prop
  | .view start count => start = first % slots s ∧ count = n ∧ start+n ≤ slots s
  | .copied values => values.length = n ∧
      ∀ (i : Nat) v, values[i]? = some v → s.pushed[first+i]? = some v

def ConsumerAt (s : State) : Prop := match s.consumer with
  | .idle => s.received.length = s.consumed
  | .loadedHead _ curHead => s.received.length = s.consumed ∧ curHead = s.ring.head
  | .notEmpty _ curHead => s.received.length = s.consumed ∧ curHead = s.ring.head ∧
      s.consumed < s.pushed.length
  | .taken curHead out => s.received.length = s.consumed ∧ curHead = s.ring.head ∧
      s.consumed < s.pushed.length ∧ ∀ v, out = some v → s.pushed[s.consumed]? = some v
  | .sizeTail _ t => s.received.length = s.consumed ∧
      ∃ sent, t = sent % slots s ∧ s.consumed ≤ sent ∧ sent ≤ s.pushed.length
  | .sized n => s.received.length = s.consumed ∧ s.consumed+n ≤ s.pushed.length
  | .located n currentHead => s.received.length = s.consumed ∧ currentHead = s.ring.head ∧
      s.consumed+n ≤ s.pushed.length
  | .contiguous n currentHead => s.received.length = s.consumed ∧ currentHead = s.ring.head ∧
      s.consumed+n ≤ s.pushed.length ∧ currentHead+n ≤ slots s
  | .copying n currentHead dest => s.received.length = s.consumed ∧ currentHead = s.ring.head ∧
      s.consumed+n ≤ s.pushed.length ∧ dest.length < n ∧
      ∀ (i : Nat) v, dest[i]? = some v → s.pushed[s.consumed+i]? = some v
  | .built n array => s.received.length = s.consumed ∧ s.consumed+n ≤ s.pushed.length ∧
      ArrayAt s s.consumed n array
  | .advancing n cur array => s.received.length = s.consumed ∧ cur = s.ring.head ∧
      s.consumed+n ≤ s.pushed.length ∧ ArrayAt s s.consumed n array
  | .reading n array i => s.received.length+(n-i) = s.consumed ∧ i < n ∧ n ≤ s.consumed ∧
      ArrayAt s (s.consumed-n) n array

structure Inv (capacity : Nat) (s : State) : Prop where
  made : s.ring.capacity = capacity
  length : s.ring.buf.length = slots s
  head : s.ring.head = s.consumed % slots s
  tail : s.ring.tail = s.pushed.length % slots s
  order : s.consumed ≤ s.pushed.length
  room : s.pushed.length ≤ s.consumed+s.ring.capacity
  live : ∀ k, s.consumed ≤ k → k < s.pushed.length → s.ring.buf[k % slots s]? = s.pushed[k]?
  producer : ProducerAt s
  consumer : ConsumerAt s

theorem initInv (capacity : Nat) : Inv capacity (init capacity) := by
  constructor <;> simp [init,ExactRing.construct,ProducerAt,ConsumerAt,slots]

variable {capacity : Nat} {s t : State}

theorem slotsPositive (s : State) : 0 < slots s := Nat.succ_pos _

theorem Inv.headBelow (inv : Inv capacity s) : s.ring.head < slots s := by
  rw [inv.head]
  exact Nat.mod_lt _ (slotsPositive s)

theorem Inv.nextTail (inv : Inv capacity s) :
    (s.ring.tail+1) % slots s = (s.pushed.length+1) % slots s := by
  rw [inv.tail,Nat.mod_add_mod]

theorem writeMisses (room : s.pushed.length < s.consumed+s.ring.capacity) {k : Nat}
    (live : s.consumed ≤ k+1) (published : k < s.pushed.length) :
    s.pushed.length % slots s ≠ k % slots s := by
  intro same
  have := CyclicIndex.sameSlot same (by unfold slots; omega) (by omega)
  omega

theorem beginPushIs {value} (moved : beginPush s value = some t) : s.producer = .idle ∧
    t = { s with producer := .loadedTail value s.ring.tail ((s.ring.tail+1) % slots s) } := by
  unfold beginPush at moved
  split at moved <;> try contradiction
  rename_i pc
  exact ⟨pc,(Option.some.inj moved).symm⟩

theorem beginCallIs {call} (moved : beginCall s call = some t) :
    s.consumer = .idle ∧ t = { s with consumer := call } := by
  unfold beginCall at moved
  split at moved <;> try contradiction
  rename_i pc
  exact ⟨pc,(Option.some.inj moved).symm⟩

theorem beginPushKeeps {value} (inv : Inv capacity s) (moved : beginPush s value = some t) :
    Inv capacity t := by
  obtain ⟨_,rfl⟩ := beginPushIs moved
  exact { inv with producer := ⟨inv.tail,inv.nextTail⟩ }

theorem ArrayAt.grows {first n array} (value : CInt) (at' : ArrayAt s first n array) :
    ArrayAt { s with pushed := s.pushed ++ [value] } first n array := by
  cases array with
  | view start count => exact at'
  | copied values => exact ⟨at'.1,fun i v found => AppendLog.kept (at'.2 i v found)⟩

theorem ConsumerAt.grows (value : CInt) (at' : ConsumerAt s) :
    ConsumerAt { s with pushed := s.pushed ++ [value] } := by
  have grown : (s.pushed ++ [value]).length = s.pushed.length+1 := by simp
  unfold ConsumerAt at at' ⊢
  dsimp only
  split at at'
  · exact at'
  · exact at'
  · exact ⟨at'.1,at'.2.1,by omega⟩
  · exact ⟨at'.1,at'.2.1,by omega,fun v read => AppendLog.kept (at'.2.2.2 v read)⟩
  · obtain ⟨count,sent,same,least,most⟩ := at'
    exact ⟨count,sent,same,least,by omega⟩
  · exact ⟨at'.1,by omega⟩
  · exact ⟨at'.1,at'.2.1,by omega⟩
  · exact ⟨at'.1,at'.2.1,by omega,at'.2.2.2⟩
  · obtain ⟨count,head,enough,part,copied⟩ := at'
    exact ⟨count,head,by omega,part,fun i v found => AppendLog.kept (copied i v found)⟩
  · exact ⟨at'.1,by omega,at'.2.2.grows value⟩
  · exact ⟨at'.1,at'.2.1,by omega,at'.2.2.2.grows value⟩
  · exact ⟨at'.1,at'.2.1,at'.2.2.1,at'.2.2.2.grows value⟩

theorem loadedTailKeeps {value curTail nextTail} (inv : Inv capacity s)
    (pc : s.producer = .loadedTail value curTail nextTail) (moved : produce s = some t) :
    Inv capacity t := by
  have producer := inv.producer
  have room := inv.room
  simp only [ProducerAt,pc] at producer
  simp only [produce,pc] at moved
  cases Option.some.inj moved
  refine { inv with producer := ?_ }
  unfold ProducerAt
  by_cases full : nextTail = s.ring.head
  · simp only [if_pos full]
  · simp only [if_neg full]
    refine ⟨producer.1,producer.2,?_⟩
    -- a full ring is exactly what the test rules out
    by_contra lap
    have same : s.pushed.length+1 = s.consumed+slots s := by unfold slots; omega
    apply full
    rw [producer.2,same,Nat.add_mod_right,inv.head]

theorem notFullKeeps {value curTail nextTail} (inv : Inv capacity s)
    (pc : s.producer = .notFull value curTail nextTail) (moved : produce s = some t) :
    Inv capacity t := by
  have producer := inv.producer
  simp only [ProducerAt,pc] at producer
  simp only [produce,pc] at moved
  cases Option.some.inj moved
  obtain ⟨slot,next,room⟩ := producer
  have inside : curTail < s.ring.buf.length := by
    rw [inv.length,slot]
    exact Nat.mod_lt _ (slotsPositive s)
  refine { inv with
    length := by simpa [slots] using inv.length
    live := ?_
    producer := ⟨slot,next,room,by simp [inside]⟩ }
  intro k least published
  dsimp only at least published
  have apart : curTail ≠ k % slots s := by
    rw [slot]
    exact writeMisses room (by omega) published
  exact (List.getElem?_set_ne apart).trans (inv.live k least published)

theorem writtenKeeps {value curTail nextTail} (inv : Inv capacity s)
    (pc : s.producer = .written value curTail nextTail) (moved : produce s = some t) :
    Inv capacity t := by
  have producer := inv.producer
  have order := inv.order
  simp only [ProducerAt,pc] at producer
  simp only [produce,pc] at moved
  cases Option.some.inj moved
  obtain ⟨slot,next,room,stored⟩ := producer
  refine { inv with
    tail := by simpa [slots] using next
    order := by simp; omega
    room := by simp; omega
    live := ?_
    producer := trivial
    consumer := inv.consumer.grows value }
  intro k least published
  simp only [List.length_append,List.length_singleton] at published
  rcases Nat.lt_or_ge k s.pushed.length with old | new
  · exact (inv.live k least old).trans (List.getElem?_append_left old).symm
  · have last : k = s.pushed.length := by omega
    subst last
    rw [AppendLog.latest,← stored,slot]
    rfl

theorem produceKeeps (inv : Inv capacity s) (moved : produce s = some t) : Inv capacity t := by
  cases pc : s.producer with
  | idle => simp [produce,pc] at moved
  | loadedTail value curTail nextTail => exact loadedTailKeeps inv pc moved
  | notFull value curTail nextTail => exact notFullKeeps inv pc moved
  | written value curTail nextTail => exact writtenKeeps inv pc moved

theorem beginCallKeeps {call} (inv : Inv capacity s) (moved : beginCall s call = some t)
    (first : s.received.length = s.consumed → ConsumerAt { s with consumer := call }) :
    Inv capacity t := by
  have consumer := inv.consumer
  obtain ⟨pc,rfl⟩ := beginCallIs moved
  simp only [ConsumerAt,pc] at consumer
  exact { inv with consumer := first consumer }

theorem releaseKeeps {head n received consumer} (inv : Inv capacity s)
    (enough : s.consumed+n ≤ s.pushed.length) (moved : head = (s.consumed+n) % slots s)
    (after : ConsumerAt (release s head n received consumer)) :
    Inv capacity (release s head n received consumer) := by
  have producer := inv.producer
  have room := inv.room
  refine { inv with
    head := moved
    order := enough
    room := by simp only [release]; omega
    live := fun k least published => inv.live k (by simp only [release] at least; omega) published
    producer := ?_
    consumer := after }
  unfold ProducerAt at producer ⊢
  simp only [release]
  split at producer
  · trivial
  · exact producer
  · exact ⟨producer.1,producer.2.1,by omega⟩
  · exact ⟨producer.1,producer.2.1,by omega,producer.2.2.2⟩

theorem Inv.chunkSlot (inv : Inv capacity s) {i : Nat} (small : i < slots s) :
    (if i < slots s - s.ring.head then s.ring.head+i else i-(slots s - s.ring.head))
      = (s.consumed+i) % slots s := by
  have below := inv.headBelow
  rw [← Nat.mod_add_mod,← inv.head,CyclicIndex.wrapOnce (by omega)]
  split <;> split <;> omega

theorem Inv.headStep (inv : Inv capacity s) (n : Nat) :
    (s.ring.head+n) % slots s = (s.consumed+n) % slots s := by
  rw [inv.head,Nat.mod_add_mod]

theorem Inv.sizeSeen (inv : Inv capacity s) {seen : Nat} (least : s.consumed ≤ seen)
    (most : seen ≤ s.pushed.length) :
    ExactRing.sizeFrom s.ring.capacity (seen % slots s) s.ring.head = seen-s.consumed := by
  have room := inv.room
  have shift : s.consumed+(seen-s.consumed) = seen := by omega
  have at' := CyclicIndex.gapAt (n := seen-s.consumed) inv.headBelow (by unfold slots; omega)
  rw [inv.headStep,shift] at at'
  rw [ExactRing.sizeFromGap inv.headBelow]
  exact at'

theorem loadedHeadKeeps {outVal curHead} (inv : Inv capacity s)
    (pc : s.consumer = .loadedHead outVal curHead) (moved : consume s = some t) : Inv capacity t := by
  have consumer := inv.consumer
  have order := inv.order
  simp only [ConsumerAt,pc] at consumer
  simp only [consume,pc] at moved
  cases Option.some.inj moved
  obtain ⟨count,here⟩ := consumer
  refine { inv with consumer := ?_ }
  unfold ConsumerAt
  by_cases empty : curHead = s.ring.tail
  · simp only [if_pos empty]
    exact count
  · simp only [if_neg empty]
    refine ⟨count,here,?_⟩
    by_contra none
    have same : s.consumed = s.pushed.length := by omega
    exact empty (by rw [here,inv.head,inv.tail,same])

theorem notEmptyKeeps {outVal curHead} (inv : Inv capacity s)
    (pc : s.consumer = .notEmpty outVal curHead) (moved : consume s = some t) : Inv capacity t := by
  have consumer := inv.consumer
  simp only [ConsumerAt,pc] at consumer
  obtain ⟨count,here,nonempty⟩ := consumer
  cases outVal with
  | none =>
    simp only [consume,pc] at moved
    cases Option.some.inj moved
    refine releaseKeeps inv nonempty (by rw [here,inv.headStep]) ?_
    simp [ConsumerAt,release,count]
  | some old =>
    simp only [consume,pc] at moved
    obtain ⟨value,read,moved⟩ := Option.bind_eq_some_iff.mp moved
    cases Option.some.inj moved
    refine { inv with consumer := ⟨count,here,nonempty,?_⟩ }
    rintro v ⟨⟩
    have live := inv.live s.consumed (Nat.le_refl _) nonempty
    rw [← inv.head,← here,read] at live
    exact live.symm

theorem takenKeeps {curHead out} (inv : Inv capacity s)
    (pc : s.consumer = .taken curHead out) (moved : consume s = some t) : Inv capacity t := by
  have consumer := inv.consumer
  simp only [ConsumerAt,pc] at consumer
  simp only [consume,pc] at moved
  cases Option.some.inj moved
  obtain ⟨count,here,nonempty,_⟩ := consumer
  refine releaseKeeps inv nonempty (by rw [here,inv.headStep]) ?_
  simp [ConsumerAt,release,count]

theorem sizeTailKeeps {n seenTail} (inv : Inv capacity s)
    (pc : s.consumer = .sizeTail n seenTail) (moved : consume s = some t) : Inv capacity t := by
  have consumer := inv.consumer
  simp only [ConsumerAt,pc] at consumer
  simp only [consume,pc] at moved
  cases Option.some.inj moved
  obtain ⟨count,seen,same,least,most⟩ := consumer
  have size := inv.sizeSeen least most
  rw [← same] at size
  refine { inv with consumer := ?_ }
  unfold ConsumerAt
  by_cases short : ExactRing.sizeFrom s.ring.capacity seenTail s.ring.head < n
  · simp only [if_pos short]
    exact count
  · simp only [if_neg short]
    exact ⟨count,by omega⟩

theorem locatedKeeps {n currentHead} (inv : Inv capacity s)
    (pc : s.consumer = .located n currentHead) (moved : consume s = some t) : Inv capacity t := by
  have consumer := inv.consumer
  have below := inv.headBelow
  simp only [ConsumerAt,pc] at consumer
  simp only [consume,pc] at moved
  cases Option.some.inj moved
  obtain ⟨count,here,enough⟩ := consumer
  refine { inv with consumer := ?_ }
  unfold ConsumerAt
  by_cases fits : currentHead+n ≤ slots s
  · simp only [if_pos fits]
    exact ⟨count,here,enough,fits⟩
  · simp only [if_neg fits]
    exact ⟨count,here,enough,by simp; omega,by simp⟩

theorem copyingKeeps {n currentHead dest} (inv : Inv capacity s)
    (pc : s.consumer = .copying n currentHead dest) (moved : consume s = some t) : Inv capacity t := by
  have consumer := inv.consumer
  have room := inv.room
  simp only [ConsumerAt,pc] at consumer
  simp only [consume,pc] at moved
  obtain ⟨value,read,moved⟩ := Option.bind_eq_some_iff.mp moved
  cases Option.some.inj moved
  obtain ⟨count,here,enough,part,copied⟩ := consumer
  rw [here,inv.chunkSlot (by unfold slots; omega),inv.live _ (by omega) (by omega)] at read
  have longer : ∀ (i : Nat) v, (dest ++ [value])[i]? = some v →
      s.pushed[s.consumed+i]? = some v := by
    intro i v found
    rcases AppendLog.entry found with old | ⟨rfl,rfl⟩
    · exact copied i v old
    · exact read
  refine { inv with consumer := ?_ }
  unfold ConsumerAt
  by_cases full : dest.length+1 = n
  · simp only [if_pos full]
    exact ⟨count,enough,by simp [full],longer⟩
  · simp only [if_neg full]
    exact ⟨count,here,enough,by simp; omega,longer⟩

theorem advancingKeeps {n cur array} (inv : Inv capacity s)
    (pc : s.consumer = .advancing n cur array) (moved : consume s = some t) : Inv capacity t := by
  have consumer := inv.consumer
  simp only [ConsumerAt,pc] at consumer
  simp only [consume,pc] at moved
  cases Option.some.inj moved
  obtain ⟨count,here,enough,made⟩ := consumer
  refine releaseKeeps inv enough (by rw [here,inv.headStep]) ?_
  unfold ConsumerAt release
  by_cases nothing : n = 0
  · simp only [if_pos nothing]
    omega
  · simp only [if_neg nothing]
    refine ⟨by omega,by omega,Nat.le_add_left _ _,?_⟩
    rw [Nat.add_sub_cancel]
    exact made

theorem readingKeeps {n array i} (inv : Inv capacity s)
    (pc : s.consumer = .reading n array i) (moved : consume s = some t) : Inv capacity t := by
  have consumer := inv.consumer
  simp only [ConsumerAt,pc] at consumer
  simp only [consume,pc] at moved
  obtain ⟨value,read,moved⟩ := Option.bind_eq_some_iff.mp moved
  cases Option.some.inj moved
  obtain ⟨count,here,released,made⟩ := consumer
  have grown : (s.received ++ [some value]).length = s.received.length+1 := by simp
  refine { inv with consumer := ?_ }
  unfold ConsumerAt
  by_cases last : i+1 = n
  · simp only [if_pos last]
    omega
  · simp only [if_neg last]
    exact ⟨by omega,by omega,released,made⟩

theorem consumeKeeps (inv : Inv capacity s) (moved : consume s = some t) : Inv capacity t := by
  have consumer := inv.consumer
  cases pc : s.consumer with
  | idle => simp [consume,pc] at moved
  | loadedHead outVal curHead => exact loadedHeadKeeps inv pc moved
  | notEmpty outVal curHead => exact notEmptyKeeps inv pc moved
  | taken curHead out => exact takenKeeps inv pc moved
  | sizeTail n seenTail => exact sizeTailKeeps inv pc moved
  | sized n =>
    simp only [ConsumerAt,pc] at consumer
    simp only [consume,pc] at moved
    cases Option.some.inj moved
    exact { inv with consumer := ⟨consumer.1,rfl,consumer.2⟩ }
  | located n currentHead => exact locatedKeeps inv pc moved
  | contiguous n currentHead =>
    simp only [ConsumerAt,pc] at consumer
    simp only [consume,pc] at moved
    cases Option.some.inj moved
    obtain ⟨count,here,enough,fits⟩ := consumer
    exact { inv with consumer := ⟨count,enough,by rw [here,inv.head]; rfl,rfl,fits⟩ }
  | copying n currentHead dest => exact copyingKeeps inv pc moved
  | built n array =>
    simp only [ConsumerAt,pc] at consumer
    simp only [consume,pc] at moved
    cases Option.some.inj moved
    exact { inv with consumer := ⟨consumer.1,rfl,consumer.2⟩ }
  | advancing n cur array => exact advancingKeeps inv pc moved
  | reading n array i => exact readingKeeps inv pc moved

structure Onward (s t : State) : Prop where
  ring : t.ring.capacity = s.ring.capacity ∧ t.ring.head = s.ring.head
  consumer : t.consumer = s.consumer
  consumed : t.consumed = s.consumed
  received : t.received = s.received

theorem Onward.trans {u : State} (first : Onward s t) (second : Onward t u) : Onward s u :=
  ⟨⟨second.ring.1.trans first.ring.1,second.ring.2.trans first.ring.2⟩,
    second.consumer.trans first.consumer,second.consumed.trans first.consumed,
    second.received.trans first.received⟩

theorem produceOnward (moved : produce s = some t) : Onward s t := by
  unfold produce at moved
  split at moved <;> try contradiction
  all_goals
    cases Option.some.inj moved
    exact ⟨⟨rfl,rfl⟩,rfl,rfl,rfl⟩

theorem producePublishes {p : Nat} {v : CInt} (moved : produce s = some t)
    (found : s.pushed[p]? = some v) : t.pushed[p]? = some v := by
  unfold produce at moved
  split at moved <;> try contradiction
  · cases Option.some.inj moved
    exact found
  · cases Option.some.inj moved
    exact found
  · cases Option.some.inj moved
    exact AppendLog.kept found

structure Drains (s t : State) : Prop where
  ring : t.ring.capacity = s.ring.capacity ∧ t.ring.tail = s.ring.tail ∧ t.ring.buf = s.ring.buf
  producer : t.producer = s.producer
  pushed : t.pushed = s.pushed
  grows : s.consumed ≤ t.consumed

theorem consumeDrains (moved : consume s = some t) : Drains s t := by
  cases pc : s.consumer with
  | idle => simp [consume,pc] at moved
  | notEmpty outVal curHead =>
    cases outVal with
    | none =>
      simp only [consume,pc] at moved
      cases Option.some.inj moved
      exact ⟨⟨rfl,rfl,rfl⟩,rfl,rfl,Nat.le_add_right _ _⟩
    | some old =>
      simp only [consume,pc] at moved
      obtain ⟨value,_,moved⟩ := Option.bind_eq_some_iff.mp moved
      cases Option.some.inj moved
      exact ⟨⟨rfl,rfl,rfl⟩,rfl,rfl,Nat.le_refl _⟩
  | taken curHead out =>
    simp only [consume,pc] at moved
    cases Option.some.inj moved
    exact ⟨⟨rfl,rfl,rfl⟩,rfl,rfl,Nat.le_add_right _ _⟩
  | advancing n cur array =>
    simp only [consume,pc] at moved
    cases Option.some.inj moved
    exact ⟨⟨rfl,rfl,rfl⟩,rfl,rfl,Nat.le_add_right _ _⟩
  | copying n currentHead dest =>
    simp only [consume,pc] at moved
    obtain ⟨value,_,moved⟩ := Option.bind_eq_some_iff.mp moved
    cases Option.some.inj moved
    exact ⟨⟨rfl,rfl,rfl⟩,rfl,rfl,Nat.le_refl _⟩
  | reading n array i =>
    simp only [consume,pc] at moved
    obtain ⟨value,_,moved⟩ := Option.bind_eq_some_iff.mp moved
    cases Option.some.inj moved
    exact ⟨⟨rfl,rfl,rfl⟩,rfl,rfl,Nat.le_refl _⟩
  | _ =>
    simp only [consume,pc] at moved
    cases Option.some.inj moved
    exact ⟨⟨rfl,rfl,rfl⟩,rfl,rfl,Nat.le_refl _⟩

theorem produceMoves (busy : s.producer ≠ .idle) : ∃ t, produce s = some t := by
  cases pc : s.producer with
  | idle => exact absurd pc busy
  | _ => simp [produce,pc]

theorem slotRead (inv : Inv capacity s) {i : Nat} (inside : i < slots s) :
    ∃ value, s.ring.buf[i]? = some value :=
  ⟨_,List.getElem?_eq_getElem (by rw [inv.length]; exact inside)⟩

theorem entryRead {first n i : Nat} {array} (inv : Inv capacity s) (at' : ArrayAt s first n array)
    (part : i < n) : ∃ value, entry s.ring i array = some value := by
  cases array with
  | view start count =>
    have fits := at'.2.2
    exact slotRead inv (by omega)
  | copied values => exact ⟨_,List.getElem?_eq_getElem (by rw [at'.1]; exact part)⟩

theorem consumeMoves (inv : Inv capacity s) (busy : s.consumer ≠ .idle) : ∃ t, consume s = some t := by
  have consumer := inv.consumer
  have below := inv.headBelow
  have room := inv.room
  cases pc : s.consumer with
  | idle => exact absurd pc busy
  | notEmpty outVal curHead =>
    simp only [ConsumerAt,pc] at consumer
    cases outVal with
    | none => simp [consume,pc]
    | some old =>
      obtain ⟨value,read⟩ := slotRead inv below
      simp [consume,pc,consumer.2.1,read]
  | copying n currentHead dest =>
    simp only [ConsumerAt,pc] at consumer
    obtain ⟨_,head,enough,part,_⟩ := consumer
    have inside : (if dest.length < slots s - currentHead then currentHead + dest.length
        else dest.length - (slots s - currentHead)) < slots s := by
      unfold slots at below ⊢
      split <;> omega
    obtain ⟨value,read⟩ := slotRead inv inside
    simp [consume,pc,read]
  | reading n array i =>
    simp only [ConsumerAt,pc] at consumer
    obtain ⟨value,read⟩ := entryRead inv consumer.2.2.2 consumer.2.1
    simp [consume,pc,read]
  | _ => simp [consume,pc]

theorem stepKeeps {a} (inv : Inv capacity s) (moved : step s a = some t) : Inv capacity t := by
  cases a with
  | push value => exact beginPushKeeps inv moved
  | produce => exact produceKeeps inv moved
  | pop outVal => exact beginCallKeeps inv moved fun count => ⟨count,rfl⟩
  | popView n =>
    exact beginCallKeeps inv moved fun count => ⟨count,_,inv.tail,inv.order,Nat.le_refl _⟩
  | consume => exact consumeKeeps inv moved

theorem runInv {acts} (run : exec step (init capacity) acts = some s) : Inv capacity s :=
  preserved (fun _ _ _ => stepKeeps) run (initInv capacity)

end FastReplay.Threads
