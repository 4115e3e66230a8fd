import FastReplay.StoreHistory
import FastReplay.CyclicIndex
import FastReplay.GuardedRun
import FastReplay.RingBuffer

/-! One producer in push and one consumer in pop, every access a step of its own.
An acquire load may return any store of the other thread that is not older than
the last one seen, and brings only the buf_ accesses made before that store. -/
namespace FastReplay.Stale
open GuardedRun
open StoreHistory (Store)

inductive Producer where
  | idle
  | loadedTail (value : CInt) (curTail nextTail : Nat)
  | notFull (value : CInt) (curTail nextTail : Nat)
  | written (value : CInt) (curTail nextTail : Nat)
  deriving DecidableEq, Repr

inductive Consumer where
  | idle
  | loadedHead (out : Bool) (curHead : Nat)
  | notEmpty (out : Bool) (curHead : Nat)
  | taken (curHead : Nat) (val : CInt)
  deriving DecidableEq, Repr

/- count of a store to head_ or tail_: the buf_ accesses its thread had made before it. -/
structure State where
  heads : List Store
  tails : List Store
  writes : List (Nat × CInt)
  reads : List Nat
  producer : Producer
  seenHead : Nat
  knownReads : Nat
  consumer : Consumer
  seenTail : Nat
  knownWrites : Nat
  pushed : List (Nat × CInt)
  popped : List (Option CInt)
  deriving DecidableEq, Repr

def init : State where
  heads := [⟨0,0⟩]
  tails := [⟨0,0⟩]
  writes := []
  reads := []
  producer := .idle
  seenHead := 0
  knownReads := 0
  consumer := .idle
  seenTail := 0
  knownWrites := 0
  pushed := []
  popped := []

inductive Action where
  | push (value : CInt)
  | loadHead (i : Nat)
  | writeSlot
  | storeTail
  | pop (out : Bool)
  | loadTail (i : Nat)
  | readSlot (seen : Option Nat)
  | storeHead
  deriving DecidableEq, Repr

/- What a read of a slot may return: any write to it, or the initial 0, that no
later known write to the same slot has replaced. Unsynchronised writes count too. -/
def visible (writes : List (Nat × CInt)) (known slot : Nat) : Option Nat → Option CInt
  | none => if (writes.take known).all (·.1 != slot) then some 0 else none
  | some j => do
    let w ← writes[j]?
    if w.1 = slot ∧ ((writes.take known).drop (j+1)).all (·.1 != slot) then some w.2 else none

def step (capacity : Nat) (s : State) : Action → Option State
  | .push value => match s.producer with
    | .idle => do
      let own ← s.tails.getLast?
      some { s with producer := .loadedTail value own.value ((own.value+1) % (capacity+1)) }
    | _ => none
  | .loadHead i => match s.producer with
    | .loadedTail value curTail nextTail => do
      let head ← s.heads[i]?
      if s.seenHead ≤ i then
        some { s with
          seenHead := i
          knownReads := max s.knownReads head.count
          producer := if nextTail = head.value then .idle else .notFull value curTail nextTail }
      else none
    | _ => none
  | .writeSlot => match s.producer with
    | .notFull value curTail nextTail =>
      some { s with
        writes := s.writes ++ [(curTail,value)]
        producer := .written value curTail nextTail }
    | _ => none
  | .storeTail => match s.producer with
    | .written value curTail nextTail =>
      some { s with
        tails := s.tails ++ [⟨nextTail,s.writes.length⟩]
        pushed := s.pushed ++ [(curTail,value)]
        producer := .idle }
    | _ => none
  | .pop out => match s.consumer with
    | .idle => do
      let own ← s.heads.getLast?
      some { s with consumer := .loadedHead out own.value }
    | _ => none
  | .loadTail i => match s.consumer with
    | .loadedHead out curHead => do
      let tail ← s.tails[i]?
      if s.seenTail ≤ i then
        some { s with
          seenTail := i
          knownWrites := max s.knownWrites tail.count
          consumer := if curHead = tail.value then .idle else .notEmpty out curHead }
      else none
    | _ => none
  | .readSlot seen => match s.consumer with
    | .notEmpty true curHead => do
      let val ← visible s.writes s.knownWrites curHead seen
      some { s with reads := s.reads ++ [curHead], consumer := .taken curHead val }
    | _ => none
  | .storeHead => match s.consumer with
    | .taken curHead val =>
      some { s with
        heads := s.heads ++ [⟨(curHead+1) % (capacity+1),s.reads.length⟩]
        popped := s.popped ++ [some val]
        consumer := .idle }
    | .notEmpty false curHead =>
      some { s with
        heads := s.heads ++ [⟨(curHead+1) % (capacity+1),s.reads.length⟩]
        popped := s.popped ++ [none]
        consumer := .idle }
    | _ => none

def ProducerAt (capacity : Nat) (s : State) : Prop := match s.producer with
  | .idle => s.writes.length = s.pushed.length
  | .loadedTail _ curTail nextTail => s.writes.length = s.pushed.length ∧
      curTail = s.pushed.length % (capacity+1) ∧ nextTail = (s.pushed.length+1) % (capacity+1)
  | .notFull _ curTail nextTail => s.writes.length = s.pushed.length ∧
      curTail = s.pushed.length % (capacity+1) ∧ nextTail = (s.pushed.length+1) % (capacity+1) ∧
      s.pushed.length < s.seenHead+capacity
  | .written value curTail nextTail => s.writes.length = s.pushed.length+1 ∧
      s.writes[s.pushed.length]? = some (curTail,value) ∧
      nextTail = (s.pushed.length+1) % (capacity+1) ∧ s.pushed.length < s.seenHead+capacity

def ConsumerAt (capacity : Nat) (s : State) : Prop := match s.consumer with
  | .idle => True
  | .loadedHead _ curHead => curHead = s.popped.length % (capacity+1)
  | .notEmpty _ curHead => curHead = s.popped.length % (capacity+1) ∧ s.popped.length < s.seenTail
  | .taken curHead val => curHead = s.popped.length % (capacity+1) ∧ s.popped.length < s.seenTail ∧
      ∃ w, s.pushed[s.popped.length]? = some w ∧ w.2 = val

structure Inv (capacity : Nat) (s : State) : Prop where
  heads : ∀ (i : Nat) h, s.heads[i]? = some h → h.value = i % (capacity+1)
  headCount : s.heads.length = s.popped.length+1
  tails : ∀ (i : Nat) t, s.tails[i]? = some t → t.value = i % (capacity+1) ∧ t.count = i
  tailCount : s.tails.length = s.pushed.length+1
  headSeen : s.seenHead ≤ s.popped.length
  tailSeen : s.seenTail ≤ s.pushed.length
  order : s.popped.length ≤ s.seenTail
  room : s.pushed.length ≤ s.seenHead+capacity
  known : s.knownWrites = s.seenTail
  slots : ∀ (i : Nat) w, s.writes[i]? = some w → w.1 = i % (capacity+1)
  published : ∀ (i : Nat) w, s.pushed[i]? = some w → s.writes[i]? = some w
  producer : ProducerAt capacity s
  consumer : ConsumerAt capacity s
  fifo : ∀ (i : Nat) v, s.popped[i]? = some (some v) → ∃ w, s.pushed[i]? = some w ∧ w.2 = v
  -- the read with number k belongs to the pop with number j
  readsOf : ∀ (k : Nat) slot, s.reads[k]? = some slot → ∃ j, slot = j % (capacity+1) ∧ j < s.seenTail ∧
    ∀ (i : Nat) h, s.heads[i]? = some h → h.count ≤ k → i ≤ j
  acquired : ∃ h, s.heads[s.seenHead]? = some h ∧ h.count ≤ s.knownReads

theorem initInv (capacity : Nat) : Inv capacity init := by
  constructor <;> simp [init,ProducerAt,ConsumerAt,List.getElem?_singleton]

variable {capacity : Nat} {s t : State}

theorem Inv.writesRoom (inv : Inv capacity s) : s.writes.length ≤ s.seenHead+capacity := by
  have at' := inv.producer
  have room := inv.room
  unfold ProducerAt at at'
  split at at' <;> omega

theorem Inv.ownTail (inv : Inv capacity s) {own : Store} (last : s.tails.getLast? = some own) :
    own.value = s.pushed.length % (capacity+1) := by
  rw [List.getLast?_eq_getElem?,inv.tailCount] at last
  exact (inv.tails _ _ last).1

theorem Inv.ownHead (inv : Inv capacity s) {own : Store} (last : s.heads.getLast? = some own) :
    own.value = s.popped.length % (capacity+1) := by
  rw [List.getLast?_eq_getElem?,inv.headCount] at last
  exact inv.heads _ _ last

theorem pushKeeps {value} (inv : Inv capacity s) (moved : step capacity s (.push value) = some t) :
    Inv capacity t := by
  have producer := inv.producer
  simp only [step] at moved
  split at moved <;> try contradiction
  rename_i pc
  obtain ⟨own,last,moved⟩ := Option.bind_eq_some_iff.mp moved
  cases Option.some.inj moved
  simp only [ProducerAt,pc] at producer
  have slot := inv.ownTail last
  exact { inv with producer := ⟨producer,slot,by rw [slot,Nat.mod_add_mod]⟩ }

theorem loadHeadKeeps {i} (inv : Inv capacity s) (moved : step capacity s (.loadHead i) = some t) :
    Inv capacity t := by
  have producer := inv.producer
  simp only [step] at moved
  split at moved <;> try contradiction
  rename_i value curTail nextTail pc
  obtain ⟨head,found,moved⟩ := Option.bind_eq_some_iff.mp moved
  split at moved <;> try contradiction
  rename_i notOlder
  cases Option.some.inj moved
  simp only [ProducerAt,pc] at producer
  obtain ⟨count,slot,next⟩ := producer
  have stored := AppendLog.below found
  have bound : i ≤ s.popped.length := by rw [inv.headCount] at stored; omega
  have room := inv.room
  refine { inv with
    headSeen := bound
    room := by dsimp only; omega
    producer := ?_
    acquired := ⟨head,found,Nat.le_max_right _ _⟩ }
  unfold ProducerAt
  by_cases full : nextTail = head.value
  · simp only [if_pos full]
    exact count
  · simp only [if_neg full]
    refine ⟨count,slot,next,?_⟩
    -- a full lap ahead of the value just read is what the test rules out
    by_contra lap
    have same : s.pushed.length+1 = i+(capacity+1) := by omega
    apply full
    rw [next,inv.heads _ _ found,same,Nat.add_mod_right]

theorem writeSlotKeeps (inv : Inv capacity s) (moved : step capacity s .writeSlot = some t) :
    Inv capacity t := by
  have producer := inv.producer
  simp only [step] at moved
  split at moved <;> try contradiction
  rename_i value curTail nextTail pc
  cases Option.some.inj moved
  simp only [ProducerAt,pc] at producer
  obtain ⟨count,slot,next,room⟩ := producer
  refine { inv with
    slots := ?_
    published := ?_
    producer := ⟨by simp [count],by simp [← count],next,room⟩ }
  · intro i w found
    rcases AppendLog.entry found with old | ⟨rfl,rfl⟩
    · exact inv.slots i w old
    · rw [count]
      exact slot
  · intro i w found
    exact AppendLog.kept (inv.published i w found)

theorem storeTailKeeps (inv : Inv capacity s) (moved : step capacity s .storeTail = some t) :
    Inv capacity t := by
  have producer := inv.producer
  have consumer := inv.consumer
  simp only [step] at moved
  split at moved <;> try contradiction
  rename_i value curTail nextTail pc
  cases Option.some.inj moved
  simp only [ProducerAt,pc] at producer
  obtain ⟨count,stored,next,room⟩ := producer
  have seen := inv.tailSeen
  refine { inv with
    tails := ?_
    tailCount := by simp [inv.tailCount]
    tailSeen := by simp; omega
    room := by simp; omega
    published := ?_
    producer := by simp [ProducerAt,count]
    consumer := ?_
    fifo := ?_ }
  · intro i tail found
    rcases AppendLog.entry found with old | ⟨rfl,rfl⟩
    · exact inv.tails i tail old
    · rw [inv.tailCount]
      exact ⟨next,count⟩
  · intro i w found
    rcases AppendLog.entry found with old | ⟨rfl,rfl⟩
    · exact inv.published i w old
    · exact stored
  · unfold ConsumerAt at consumer ⊢
    dsimp only
    split at consumer
    · trivial
    · exact consumer
    · exact consumer
    · obtain ⟨slot,nonempty,w,found,same⟩ := consumer
      exact ⟨slot,nonempty,w,AppendLog.kept found,same⟩
  · intro i v found
    obtain ⟨w,pushed,same⟩ := inv.fifo i v found
    exact ⟨w,AppendLog.kept pushed,same⟩

theorem popKeeps {out} (inv : Inv capacity s) (moved : step capacity s (.pop out) = some t) :
    Inv capacity t := by
  simp only [step] at moved
  split at moved <;> try contradiction
  obtain ⟨own,last,moved⟩ := Option.bind_eq_some_iff.mp moved
  cases Option.some.inj moved
  exact { inv with consumer := inv.ownHead last }

theorem loadTailKeeps {i} (inv : Inv capacity s) (moved : step capacity s (.loadTail i) = some t) :
    Inv capacity t := by
  have consumer := inv.consumer
  simp only [step] at moved
  split at moved <;> try contradiction
  rename_i out curHead pc
  obtain ⟨tail,found,moved⟩ := Option.bind_eq_some_iff.mp moved
  split at moved <;> try contradiction
  rename_i notOlder
  cases Option.some.inj moved
  simp only [ConsumerAt,pc] at consumer
  obtain ⟨value,carried⟩ := inv.tails i tail found
  have stored := AppendLog.below found
  have count := inv.tailCount
  have order := inv.order
  refine { inv with
    tailSeen := by dsimp only; omega
    order := by dsimp only; omega
    known := by dsimp only; rw [inv.known,carried]; omega
    consumer := ?_
    readsOf := ?_ }
  · unfold ConsumerAt
    by_cases empty : curHead = tail.value
    · simp only [if_pos empty]
    · simp only [if_neg empty]
      refine ⟨consumer,?_⟩
      by_contra behind
      have same : i = s.popped.length := by omega
      apply empty
      rw [consumer,value,same]
  · intro k slot found
    obtain ⟨j,same,old,later⟩ := inv.readsOf k slot found
    exact ⟨j,same,by dsimp only; omega,later⟩

theorem visibleAt {writes known slot seen v} (read : visible writes known slot seen = some v)
    {q : Nat} {w : Nat × CInt} (written : writes[q]? = some w) (here : w.1 = slot) (old : q < known) :
    ∃ j x, seen = some j ∧ q ≤ j ∧ writes[j]? = some x ∧ x.1 = slot ∧ x.2 = v := by
  have inKnown : (writes.take known)[q]? = some w := by rw [List.getElem?_take_of_lt old,written]
  cases seen with
  | none =>
    simp only [visible] at read
    split at read <;> try contradiction
    rename_i untouched
    have other := List.all_eq_true.mp untouched w (List.mem_of_getElem? inKnown)
    simp [here] at other
  | some j =>
    obtain ⟨x,found,read⟩ := Option.bind_eq_some_iff.mp read
    split at read <;> try contradiction
    rename_i newest
    refine ⟨j,x,rfl,?_,found,newest.1,Option.some.inj read⟩
    by_contra older
    have later : ((writes.take known).drop (j+1))[q-(j+1)]? = some w := by
      rw [List.getElem?_drop,show j+1+(q-(j+1)) = q by omega]
      exact inKnown
    have other := List.all_eq_true.mp newest.2 w (List.mem_of_getElem? later)
    simp [here] at other

theorem Inv.slotWrite (inv : Inv capacity s) {j : Nat} {x : Nat × CInt}
    (found : s.writes[j]? = some x) (here : x.1 = s.popped.length % (capacity+1))
    (notOlder : s.popped.length ≤ j) : j = s.popped.length := by
  have below := AppendLog.below found
  have room := inv.writesRoom
  have seen := inv.headSeen
  refine CyclicIndex.sameSlot (m := capacity+1) ?_ (by omega) (by omega)
  rw [← inv.slots j x found,here]

theorem Inv.oldest (inv : Inv capacity s) (nonempty : s.popped.length < s.seenTail) :
    ∃ w, s.pushed[s.popped.length]? = some w ∧ s.writes[s.popped.length]? = some w ∧
      w.1 = s.popped.length % (capacity+1) := by
  have seen := inv.tailSeen
  have found := List.getElem?_eq_getElem (l := s.pushed) (i := s.popped.length) (by omega)
  have written := inv.published _ _ found
  exact ⟨_,found,written,inv.slots _ _ written⟩

theorem readSlotKeeps {seen} (inv : Inv capacity s)
    (moved : step capacity s (.readSlot seen) = some t) : Inv capacity t := by
  have consumer := inv.consumer
  simp only [step] at moved
  split at moved <;> try contradiction
  rename_i curHead pc
  obtain ⟨val,read,moved⟩ := Option.bind_eq_some_iff.mp moved
  cases Option.some.inj moved
  simp only [ConsumerAt,pc] at consumer
  obtain ⟨slot,nonempty⟩ := consumer
  obtain ⟨w,pushed,written,here⟩ := inv.oldest nonempty
  obtain ⟨j,x,_,notOlder,found,atSlot,same⟩ := visibleAt read written (here.trans slot.symm)
    (by rw [inv.known]; exact nonempty)
  have exactly := inv.slotWrite found (atSlot.trans slot) notOlder
  subst exactly
  cases Option.some.inj (found.symm.trans written)
  refine { inv with consumer := ⟨slot,nonempty,w,pushed,same⟩, readsOf := ?_ }
  intro k reached found
  rcases AppendLog.entry found with old | ⟨rfl,rfl⟩
  · exact inv.readsOf k reached old
  · refine ⟨s.popped.length,slot,nonempty,?_⟩
    intro i h stored _
    have := AppendLog.below stored
    rw [inv.headCount] at this
    omega

theorem releaseKeeps {val} (inv : Inv capacity s) (nonempty : s.popped.length < s.seenTail)
    (read : ∀ v, val = some v → ∃ w, s.pushed[s.popped.length]? = some w ∧ w.2 = v) :
    Inv capacity { s with
      heads := s.heads ++ [⟨(s.popped.length % (capacity+1) + 1) % (capacity+1),s.reads.length⟩]
      popped := s.popped ++ [val]
      consumer := .idle } := by
  have seen := inv.headSeen
  obtain ⟨h,acquired,carried⟩ := inv.acquired
  refine { inv with
    heads := ?_
    headCount := by simp [inv.headCount]
    headSeen := by simp; omega
    order := by simp; omega
    consumer := trivial
    fifo := ?_
    readsOf := ?_
    acquired := ⟨h,AppendLog.kept acquired,carried⟩ }
  · intro i store found
    rcases AppendLog.entry found with old | ⟨rfl,rfl⟩
    · exact inv.heads i store old
    · rw [inv.headCount,Nat.mod_add_mod]
  · intro i v found
    rcases AppendLog.entry found with old | ⟨rfl,same⟩
    · exact inv.fifo i v old
    · exact read v same.symm
  · intro k slot found
    obtain ⟨j,same,old,later⟩ := inv.readsOf k slot found
    refine ⟨j,same,old,?_⟩
    intro i store stored notLater
    rcases AppendLog.entry stored with before | ⟨rfl,rfl⟩
    · exact later i store before notLater
    · have := AppendLog.below found
      dsimp only at notLater this
      omega

theorem storeHeadKeeps (inv : Inv capacity s) (moved : step capacity s .storeHead = some t) :
    Inv capacity t := by
  have consumer := inv.consumer
  simp only [step] at moved
  split at moved <;> try contradiction
  · rename_i curHead val pc
    cases Option.some.inj moved
    simp only [ConsumerAt,pc] at consumer
    obtain ⟨rfl,nonempty,w,pushed,same⟩ := consumer
    exact releaseKeeps inv nonempty fun v taken => ⟨w,pushed,same.trans (Option.some.inj taken)⟩
  · rename_i curHead pc
    cases Option.some.inj moved
    simp only [ConsumerAt,pc] at consumer
    obtain ⟨rfl,nonempty⟩ := consumer
    exact releaseKeeps inv nonempty (by simp)

theorem stepKeeps {a} (inv : Inv capacity s) (moved : step capacity s a = some t) : Inv capacity t := by
  cases a with
  | push value => exact pushKeeps inv moved
  | loadHead i => exact loadHeadKeeps inv moved
  | writeSlot => exact writeSlotKeeps inv moved
  | storeTail => exact storeTailKeeps inv moved
  | pop out => exact popKeeps inv moved
  | loadTail i => exact loadTailKeeps inv moved
  | readSlot seen => exact readSlotKeeps inv moved
  | storeHead => exact storeHeadKeeps inv moved

theorem runInv {acts} (run : exec (step capacity) init acts = some s) : Inv capacity s :=
  preserved (fun _ _ _ => stepKeeps) run (initInv capacity)

def Unread (s : State) (slot : Nat) : Prop :=
  ∃ (i : Nat) (w : Nat × CInt), s.popped.length ≤ i ∧ s.pushed[i]? = some w ∧ w.1 = slot

def Holding (slot : Nat) : Consumer → Prop
  | .notEmpty _ curHead => curHead = slot
  | .taken curHead _ => curHead = slot
  | _ => False

theorem Inv.notUnread (inv : Inv capacity s) {value slot next}
    (pc : s.producer = .notFull value slot next) : ¬ Unread s slot := by
  have producer := inv.producer
  simp only [ProducerAt,pc] at producer
  obtain ⟨_,here,_,room⟩ := producer
  have seen := inv.headSeen
  rintro ⟨i,w,unread,found,same⟩
  have below := AppendLog.below found
  have lap := CyclicIndex.sameSlot (m := capacity+1) (j := i) (k := s.pushed.length)
    (by rw [← here,← same,inv.slots i w (inv.published i w found)]) (by omega) (by omega)
  omega

theorem Inv.notHolding (inv : Inv capacity s) {value slot next}
    (pc : s.producer = .notFull value slot next) : ¬ Holding slot s.consumer := by
  have free := inv.notUnread pc
  have consumer := inv.consumer
  intro holding
  apply free
  unfold ConsumerAt at consumer
  unfold Holding at holding
  split at holding
  · rename_i at'
    simp only [at'] at consumer
    obtain ⟨w,pushed,_,here⟩ := inv.oldest consumer.2
    exact ⟨_,w,Nat.le_refl _,pushed,by rw [here,← consumer.1,holding]⟩
  · rename_i at'
    simp only [at'] at consumer
    obtain ⟨w,pushed,_,here⟩ := inv.oldest consumer.2.1
    exact ⟨_,w,Nat.le_refl _,pushed,by rw [here,← consumer.1,holding]⟩
  · contradiction

theorem Inv.readsAcquired (inv : Inv capacity s) {value slot next}
    (pc : s.producer = .notFull value slot next) {k : Nat} (read : s.reads[k]? = some slot) :
    k < s.knownReads := by
  have producer := inv.producer
  simp only [ProducerAt,pc] at producer
  obtain ⟨_,here,_,room⟩ := producer
  obtain ⟨j,same,old,later⟩ := inv.readsOf k slot read
  obtain ⟨h,found,carried⟩ := inv.acquired
  have seen := inv.tailSeen
  by_contra unknown
  have lap := later _ h found (by omega)
  have equal := CyclicIndex.sameSlot (m := capacity+1) (j := j) (k := s.pushed.length)
    (by rw [← here,← same]) (by omega) (by omega)
  omega

theorem Inv.writesAcquired (inv : Inv capacity s) {out curHead}
    (pc : s.consumer = .notEmpty out curHead) {j : Nat} {x : Nat × CInt}
    (found : s.writes[j]? = some x) (here : x.1 = curHead) : j < s.knownWrites := by
  have consumer := inv.consumer
  simp only [ConsumerAt,pc] at consumer
  rw [inv.known]
  rcases Nat.lt_or_ge j s.popped.length with older | notOlder
  · omega
  · have := inv.slotWrite found (here.trans consumer.1) notOlder
    omega

theorem staleReadsAreSafe (capacity : Nat) (acts : List Action) (s : State)
    (run : exec (step capacity) init acts = some s) :
    (∀ (i : Nat) v, s.popped[i]? = some (some v) → ∃ w, s.pushed[i]? = some w ∧ w.2 = v) ∧
    s.popped.length ≤ s.pushed.length ∧ s.pushed.length ≤ s.popped.length+capacity ∧
    (∀ value slot next, s.producer = .notFull value slot next →
      ¬ Unread s slot ∧ ¬ Holding slot s.consumer ∧
      ∀ k, s.reads[k]? = some slot → k < s.knownReads) ∧
    (∀ curHead, s.consumer = .notEmpty true curHead →
      ∀ (j : Nat) x, s.writes[j]? = some x → x.1 = curHead → j < s.knownWrites) := by
  have inv := runInv run
  have seen := inv.headSeen
  have known := inv.tailSeen
  have order := inv.order
  have room := inv.room
  refine ⟨inv.fifo,by omega,by omega,?_,?_⟩
  · intro value slot next pc
    exact ⟨inv.notUnread pc,inv.notHolding pc,fun k => inv.readsAcquired pc⟩
  · intro curHead pc j x found here
    exact inv.writesAcquired pc found here

theorem staleReadsAreSafeAtOne :
    ∃ w : Nat × CInt, [((0 : Nat),(5 : CInt))][0]? = some w ∧ w.2 = 5 :=
  (staleReadsAreSafe 1
    [.push 5,.loadHead 0,.writeSlot,.storeTail,.pop true,.loadTail 1,.readSlot (some 0),.storeHead,
      .push 6,.loadHead 0]
    ⟨[⟨0,0⟩,⟨1,1⟩],[⟨0,0⟩,⟨1,1⟩],[(0,5)],[0],.idle,0,0,.idle,1,1,[(0,5)],[some 5]⟩
    (by decide)).1 0 5 rfl

end FastReplay.Stale
