import FastReplay.CallHistory
import FastReplay.Interleaving

/-! The atomic ring beside the mutex baseline. A call begins with its first access
and returns with its last one, the shortest interval it can have: any order that
respects these intervals respects those seen by the callers. The mutex makes every
baseline call one step. -/
namespace FastReplay

structure Baseline where
  capacity : Nat
  buf : List CInt
  head : Nat
  tail : Nat
  deriving DecidableEq, Repr

namespace Baseline

def construct (capacity : Nat) : Baseline := ⟨capacity,List.replicate (capacity+1) 0,0,0⟩

def push (rb : Baseline) (value : CInt) : Bool × Baseline :=
  let nextTail := (rb.tail+1) % (rb.capacity+1)
  if nextTail = rb.head then (false,rb)
  else (true,{ rb with buf := rb.buf.set rb.tail value, tail := nextTail })

def pop (rb : Baseline) (outVal : Option CInt) : (Bool × Option CInt) × Baseline :=
  if rb.head = rb.tail then ((false,outVal),rb)
  else ((true,outVal.map fun _ => rb.buf.getD rb.head 0),
    { rb with head := (rb.head+1) % (rb.capacity+1) })

end Baseline

namespace Threads
open GuardedRun CallHistory
open Stale (Producer)

inductive Thread where
  | producer
  | consumer
  deriving DecidableEq, Repr

inductive Call where
  | push (value : CInt)
  | pop (outVal : Option CInt)
  deriving DecidableEq, Repr

def Call.thread : Call → Thread
  | .push _ => .producer
  | .pop _ => .consumer

inductive Answer where
  | pushed (ok : Bool)
  | popped (ok : Bool) (out : Option CInt)
  deriving DecidableEq, Repr

abbrev Issued := CallHistory.Issued Call

def baseline (rb : Baseline) (issued : Issued) : Answer × Baseline :=
  match issued.call with
  | .push value => (.pushed (rb.push value).1,(rb.push value).2)
  | .pop outVal => (.popped (rb.pop outVal).1.1 (rb.pop outVal).1.2,(rb.pop outVal).2)

def ofThread (thread : Thread) (calls : List Issued) : List Issued :=
  calls.filter (·.call.thread = thread)

def answer (s : State) : Action → Option Answer
  | .produce => match s.producer with
    | .loadedTail _ _ nextTail => if nextTail = s.ring.head then some (.pushed false) else none
    | .written _ _ _ => some (.pushed true)
    | _ => none
  | .consume => match s.consumer with
    | .loadedHead outVal curHead =>
      if curHead = s.ring.tail then some (.popped false outVal) else none
    | .notEmpty none _ => some (.popped true none)
    | .taken _ out => some (.popped true out)
    | _ => none
  | _ => none

structure Watched where
  state : State
  events : List (Event Issued Answer)
  deriving DecidableEq, Repr

def watching (capacity : Nat) : Watched := ⟨init capacity,[]⟩

def Watched.begins (w : Watched) (call : Call) (t : State) : Watched :=
  ⟨t,w.events ++ [.began ⟨(begun w.events).length,call⟩]⟩

def Watched.returns (w : Watched) (thread : Thread) (result : Option Answer) (t : State) : Watched :=
  match result,(ofThread thread (begun w.events)).getLast? with
  | some r,some issued => ⟨t,w.events ++ [.returned issued r]⟩
  | _,_ => { w with state := t }

def watch (w : Watched) (a : Action) : Option Watched := do
  let t ← step w.state a
  match a with
  | .push value => some (w.begins (.push value) t)
  | .pop outVal => some (w.begins (.pop outVal) t)
  | .produce => some (w.returns .producer (answer w.state a) t)
  | .consume => some (w.returns .consumer (answer w.state a) t)
  | .popView _ => none

def Running (events : List (Event Issued Answer)) (thread : Thread) (calls : List Issued) : Prop :=
  ofThread thread (begun events) = ofThread thread ((answered events).map Prod.fst) ++ calls

def PushRuns (s : State) (events : List (Event Issued Answer)) : Prop := match s.producer with
  | .idle => Running events .producer []
  | .loadedTail value _ _ | .notFull value _ _ | .written value _ _ =>
    ∃ k, Running events .producer [⟨k,.push value⟩]

def PopRuns (s : State) (events : List (Event Issued Answer)) : Prop := match s.consumer with
  | .idle => Running events .consumer []
  | .loadedHead outVal _ | .notEmpty outVal _ => ∃ k, Running events .consumer [⟨k,.pop outVal⟩]
  | .taken _ out => ∃ k old, Running events .consumer [⟨k,.pop (some old)⟩] ∧ out ≠ none
  | _ => False

/- The baseline that was given the returned calls. A value that push has written
and not yet published is missing there. -/
structure Follows (s : State) (rb : Baseline) : Prop where
  capacity : rb.capacity = s.ring.capacity
  head : rb.head = s.ring.head
  tail : rb.tail = s.ring.tail
  buf : s.ring.buf = match s.producer with
    | .written value curTail _ => rb.buf.set curTail value
    | _ => rb.buf

structure Recorded (capacity : Nat) (events : List (Event Issued Answer)) (rb : Baseline) :
    Prop where
  numbers : (begun events).map Issued.number = List.range (begun events).length
  proper : Proper events
  legal : replay baseline (Baseline.construct capacity) ((answered events).map Prod.fst)
    = ((answered events).map Prod.snd,rb)

structure WatchedInv (capacity : Nat) (w : Watched) (rb : Baseline) : Prop where
  inv : Inv capacity w.state
  push : PushRuns w.state w.events
  pop : PopRuns w.state w.events
  recorded : Recorded capacity w.events rb
  follows : Follows w.state rb

variable {capacity : Nat} {rb after : Baseline} {events : List (Event Issued Answer)}
  {thread : Thread} {calls : List Issued} {issued : Issued} {r : Answer} {a : Action}
  {w : Watched} {s t : State}

theorem Recorded.begins (recorded : Recorded capacity events rb) (call : Call) :
    Recorded capacity (events ++ [.began ⟨(begun events).length,call⟩]) rb := by
  have fresh : (⟨(begun events).length,call⟩ : Issued) ∉ begun events := by
    intro mem
    have number := List.mem_map_of_mem (f := Issued.number) mem
    rw [recorded.numbers] at number
    exact absurd (List.mem_range.mp number) (Nat.lt_irrefl _)
  exact ⟨by simp [recorded.numbers,List.range_succ],recorded.proper.begins fresh,
    by simpa using recorded.legal⟩

theorem Recorded.returns (recorded : Recorded capacity events rb) (running : issued ∈ begun events)
    (same : baseline rb issued = (r,after)) :
    Recorded capacity (events ++ [.returned issued r]) after := by
  refine ⟨by simpa using recorded.numbers,recorded.proper.returns running,?_⟩
  simp only [answeredAppend,answeredReturned,answeredNil,List.map_append,List.map_cons,List.map_nil,
    replaySnoc,recorded.legal,same]

theorem Running.begins (running : Running events thread []) (own : issued.call.thread = thread) :
    Running (events ++ [.began issued]) thread [issued] := by
  unfold Running ofThread at running ⊢
  simp only [begunAppend,begunBegan,begunNil,answeredAppend,answeredBegan,answeredNil,
    List.filter_append,List.append_nil,running]
  simp [own]

theorem Running.beginsElsewhere (running : Running events thread calls)
    (other : issued.call.thread ≠ thread) : Running (events ++ [.began issued]) thread calls := by
  unfold Running ofThread at running ⊢
  simp only [begunAppend,begunBegan,begunNil,answeredAppend,answeredBegan,answeredNil,
    List.filter_append,List.append_nil,running]
  simp [other]

theorem Running.returns (running : Running events thread [issued]) (own : issued.call.thread = thread) :
    Running (events ++ [.returned issued r]) thread [] := by
  unfold Running ofThread at running ⊢
  simp only [begunAppend,begunReturned,begunNil,answeredAppend,answeredReturned,answeredNil,
    List.map_append,List.filter_append,List.append_nil,running]
  simp [own]

theorem Running.returnsElsewhere (running : Running events thread calls)
    (other : issued.call.thread ≠ thread) : Running (events ++ [.returned issued r]) thread calls := by
  unfold Running ofThread at running ⊢
  simp only [begunAppend,begunReturned,begunNil,answeredAppend,answeredReturned,answeredNil,
    List.map_append,List.filter_append,List.append_nil,running]
  simp [other]

theorem Running.last (running : Running events thread [issued]) :
    (ofThread thread (begun events)).getLast? = some issued := by
  rw [show ofThread thread (begun events) = _ from running]
  simp

theorem Running.began (running : Running events thread [issued]) : issued ∈ begun events := by
  have mem : issued ∈ ofThread thread (begun events) := by
    rw [show ofThread thread (begun events) = _ from running]
    simp
  exact (List.mem_filter.mp mem).1

theorem PushRuns.kept {events' : List (Event Issued Answer)} (push : PushRuns s events)
    (same : t.producer = s.producer)
    (keep : ∀ calls, Running events .producer calls → Running events' .producer calls) :
    PushRuns t events' := by
  unfold PushRuns at push ⊢
  rw [same]
  split at push
  · exact keep _ push
  all_goals exact push.imp fun _ => keep _

theorem PopRuns.kept {events' : List (Event Issued Answer)} (pop : PopRuns s events)
    (same : t.consumer = s.consumer)
    (keep : ∀ calls, Running events .consumer calls → Running events' .consumer calls) :
    PopRuns t events' := by
  unfold PopRuns at pop ⊢
  rw [same]
  split at pop
  · exact keep _ pop
  · exact pop.imp fun _ => keep _
  · exact pop.imp fun _ => keep _
  · obtain ⟨k,old,running,taken⟩ := pop
    exact ⟨k,old,keep _ running,taken⟩
  · contradiction

theorem Watched.returnsNone (silent : answer w.state a = none) :
    w.returns thread (answer w.state a) t = ⟨t,w.events⟩ := by
  simp [Watched.returns,silent]

theorem Watched.returnsOne (running : Running w.events thread [issued])
    (result : answer w.state a = some r) :
    w.returns thread (answer w.state a) t = ⟨t,w.events ++ [.returned issued r]⟩ := by
  simp [Watched.returns,result,running.last]

theorem beginPushWatched {value} (h : WatchedInv capacity w rb)
    (moved : beginPush w.state value = some t) : WatchedInv capacity (w.begins (.push value) t) rb := by
  have inv := beginPushKeeps h.inv moved
  have push := h.push
  obtain ⟨pc,rfl⟩ := beginPushIs moved
  simp only [PushRuns,pc] at push
  have buf := h.follows.buf
  simp only [pc] at buf
  exact ⟨inv,⟨_,push.begins rfl⟩,
    h.pop.kept rfl fun _ running => running.beginsElsewhere (by simp [Call.thread]),
    h.recorded.begins _,{ h.follows with buf := buf }⟩

theorem beginPopWatched {outVal} (h : WatchedInv capacity w rb)
    (moved : step w.state (.pop outVal) = some t) :
    WatchedInv capacity (w.begins (.pop outVal) t) rb := by
  have inv := stepKeeps h.inv moved
  have pop := h.pop
  obtain ⟨pc,rfl⟩ := beginCallIs moved
  simp only [PopRuns,pc] at pop
  exact ⟨inv,h.push.kept rfl fun _ running => running.beginsElsewhere (by simp [Call.thread]),
    ⟨_,pop.begins rfl⟩,h.recorded.begins _,{ h.follows with }⟩

theorem loadedTailWatched {value curTail nextTail} (h : WatchedInv capacity w rb)
    (pc : w.state.producer = .loadedTail value curTail nextTail)
    (moved : produce w.state = some t) :
    WatchedInv capacity (w.returns .producer (answer w.state .produce) t) rb := by
  have inv := produceKeeps h.inv moved
  have push := h.push
  have follows := h.follows
  have producer := h.inv.producer
  have buf := follows.buf
  have pop := fun events' keep => (h.pop.kept ((produceOnward moved).consumer) keep : PopRuns t events')
  simp only [PushRuns,pc] at push
  simp only [ProducerAt,pc] at producer
  simp only [produce,pc] at moved buf
  cases Option.some.inj moved
  obtain ⟨k,running⟩ := push
  by_cases full : nextTail = w.state.ring.head
  · have result : answer w.state .produce = some (.pushed false) := by simp [answer,pc,full]
    have same : (rb.tail+1) % (rb.capacity+1) = rb.head := by
      rw [follows.tail,follows.capacity,follows.head,← full,producer.2]
      exact h.inv.nextTail
    rw [Watched.returnsOne running result]
    refine ⟨inv,?_,pop _ fun _ running => running.returnsElsewhere (by simp [Call.thread]),
      h.recorded.returns running.began (by simp [baseline,Baseline.push,same]),
      { follows with buf := by simpa [full] using buf }⟩
    simp only [PushRuns,if_pos full]
    exact running.returns rfl
  · have silent : answer w.state .produce = none := by simp [answer,pc,full]
    rw [Watched.returnsNone silent]
    refine ⟨inv,?_,pop _ fun _ running => running,h.recorded,
      { follows with buf := by simpa [full] using buf }⟩
    simp only [PushRuns,if_neg full]
    exact ⟨k,running⟩

theorem notFullWatched {value curTail nextTail} (h : WatchedInv capacity w rb)
    (pc : w.state.producer = .notFull value curTail nextTail) (moved : produce w.state = some t) :
    WatchedInv capacity (w.returns .producer (answer w.state .produce) t) rb := by
  have inv := produceKeeps h.inv moved
  have push := h.push
  have buf := h.follows.buf
  have pop := h.pop.kept ((produceOnward moved).consumer) fun _ running => running
  have silent : answer w.state .produce = none := by simp [answer,pc]
  simp only [PushRuns,pc] at push
  simp only [produce,pc] at moved buf
  cases Option.some.inj moved
  rw [Watched.returnsNone silent]
  exact ⟨inv,push,pop,h.recorded,{ h.follows with buf := by simp [buf] }⟩

theorem writtenWatched {value curTail nextTail} (h : WatchedInv capacity w rb)
    (pc : w.state.producer = .written value curTail nextTail) (moved : produce w.state = some t) :
    WatchedInv capacity (w.returns .producer (answer w.state .produce) t)
      { rb with buf := rb.buf.set curTail value, tail := nextTail } := by
  have inv := produceKeeps h.inv moved
  have push := h.push
  have follows := h.follows
  have producer := h.inv.producer
  have buf := follows.buf
  have pop := fun events' keep => (h.pop.kept ((produceOnward moved).consumer) keep : PopRuns t events')
  have result : answer w.state .produce = some (.pushed true) := by simp [answer,pc]
  simp only [PushRuns,pc] at push
  simp only [ProducerAt,pc] at producer
  simp only [produce,pc] at moved buf
  cases Option.some.inj moved
  obtain ⟨k,running⟩ := push
  obtain ⟨slot,next,room,_⟩ := producer
  have tail : rb.tail = curTail := by rw [follows.tail,h.inv.tail,slot]
  have after : (curTail+1) % (rb.capacity+1) = nextTail := by
    rw [← tail,follows.tail,follows.capacity,next]
    exact h.inv.nextTail
  have free : nextTail ≠ rb.head := by
    intro full
    rw [follows.head,h.inv.head,next] at full
    have order := h.inv.order
    have := CyclicIndex.sameSlot full (by unfold slots; omega) (by omega)
    omega
  rw [Watched.returnsOne running result]
  exact ⟨inv,running.returns rfl,
    pop _ fun _ running => running.returnsElsewhere (by simp [Call.thread]),
    h.recorded.returns running.began (by simp [baseline,Baseline.push,after,free,tail]),
    ⟨follows.capacity,follows.head,rfl,buf⟩⟩

theorem produceWatched (h : WatchedInv capacity w rb) (moved : produce w.state = some t) :
    ∃ rb', WatchedInv capacity (w.returns .producer (answer w.state .produce) t) rb' := by
  cases pc : w.state.producer with
  | idle => simp [produce,pc] at moved
  | loadedTail value curTail nextTail => exact ⟨_,loadedTailWatched h pc moved⟩
  | notFull value curTail nextTail => exact ⟨_,notFullWatched h pc moved⟩
  | written value curTail nextTail => exact ⟨_,writtenWatched h pc moved⟩

theorem baselineHead (h : WatchedInv capacity w rb)
    (nonempty : w.state.consumed < w.state.pushed.length) :
    rb.head ≠ rb.tail ∧ rb.buf[rb.head]? = w.state.pushed[w.state.consumed]? := by
  have follows := h.follows
  have room := h.inv.room
  refine ⟨?_,?_⟩
  · rw [follows.head,follows.tail,h.inv.head,h.inv.tail]
    intro same
    have := CyclicIndex.sameSlot same (by unfold slots; omega) (by unfold slots; omega)
    omega
  · have live := h.inv.live _ (Nat.le_refl _) nonempty
    rw [follows.head,h.inv.head,← live,follows.buf]
    split
    · rename_i value curTail nextTail pc
      have producer := h.inv.producer
      simp only [ProducerAt,pc] at producer
      refine (List.getElem?_set_ne ?_).symm
      rw [producer.1]
      exact writeMisses producer.2.2.1 (by omega) nonempty
    · rfl

theorem loadedHeadWatched {outVal curHead} (h : WatchedInv capacity w rb)
    (pc : w.state.consumer = .loadedHead outVal curHead) (moved : consume w.state = some t) :
    WatchedInv capacity (w.returns .consumer (answer w.state .consume) t) rb := by
  have inv := consumeKeeps h.inv moved
  have pop := h.pop
  have follows := h.follows
  have consumer := h.inv.consumer
  simp only [PopRuns,pc] at pop
  simp only [ConsumerAt,pc] at consumer
  simp only [consume,pc] at moved
  cases Option.some.inj moved
  obtain ⟨k,running⟩ := pop
  by_cases empty : curHead = w.state.ring.tail
  · have result : answer w.state .consume = some (.popped false outVal) := by simp [answer,pc,empty]
    have same : rb.head = rb.tail := by rw [follows.head,follows.tail,← empty,consumer.2]
    rw [Watched.returnsOne running result]
    refine ⟨inv,h.push.kept rfl fun _ running => running.returnsElsewhere (by simp [Call.thread]),?_,
      h.recorded.returns running.began (by simp [baseline,Baseline.pop,same]),{ follows with }⟩
    simp only [PopRuns,if_pos empty]
    exact running.returns rfl
  · have silent : answer w.state .consume = none := by simp [answer,pc,empty]
    rw [Watched.returnsNone silent]
    refine ⟨inv,h.push.kept rfl fun _ running => running,?_,h.recorded,{ follows with }⟩
    simp only [PopRuns,if_neg empty]
    exact ⟨k,running⟩

theorem releaseWatched {k outVal curHead out} (h : WatchedInv capacity w rb)
    (running : Running w.events .consumer [⟨k,.pop outVal⟩])
    (here : curHead = w.state.ring.head) (nonempty : w.state.consumed < w.state.pushed.length)
    (read : out = outVal.map fun _ => rb.buf.getD rb.head 0)
    (inv : Inv capacity (release w.state ((curHead+1) % slots w.state) 1
      (w.state.received ++ [out]) .idle))
    (result : answer w.state .consume = some (.popped true out)) :
    WatchedInv capacity (w.returns .consumer (answer w.state .consume)
      (release w.state ((curHead+1) % slots w.state) 1 (w.state.received ++ [out]) .idle))
      { rb with head := (curHead+1) % slots w.state } := by
  have follows := h.follows
  have next : (rb.head+1) % (rb.capacity+1) = (curHead+1) % slots w.state := by
    rw [follows.head,follows.capacity,here]
    rfl
  have popped : baseline rb ⟨k,.pop outVal⟩
      = (.popped true out,{ rb with head := (curHead+1) % slots w.state }) := by
    simp [baseline,Baseline.pop,(baselineHead h nonempty).1,next,read]
  rw [Watched.returnsOne running result]
  exact ⟨inv,h.push.kept rfl fun _ running => running.returnsElsewhere (by simp [Call.thread]),
    running.returns rfl,h.recorded.returns running.began popped,
    ⟨follows.capacity,rfl,follows.tail,follows.buf⟩⟩

theorem consumeWatched (h : WatchedInv capacity w rb) (moved : consume w.state = some t) :
    ∃ rb', WatchedInv capacity (w.returns .consumer (answer w.state .consume) t) rb' := by
  have inv := consumeKeeps h.inv moved
  have pop := h.pop
  have consumer := h.inv.consumer
  cases pc : w.state.consumer with
  | idle => simp [consume,pc] at moved
  | loadedHead outVal curHead => exact ⟨rb,loadedHeadWatched h pc moved⟩
  | notEmpty outVal curHead =>
    simp only [PopRuns,pc] at pop
    simp only [ConsumerAt,pc] at consumer
    obtain ⟨k,running⟩ := pop
    cases outVal with
    | none =>
      simp only [consume,pc] at moved
      cases Option.some.inj moved
      exact ⟨_,releaseWatched h running consumer.2.1 consumer.2.2 rfl inv (by simp [answer,pc])⟩
    | some old =>
      simp only [consume,pc] at moved
      obtain ⟨value,read,moved⟩ := Option.bind_eq_some_iff.mp moved
      cases Option.some.inj moved
      have silent : answer w.state .consume = none := by simp [answer,pc]
      rw [Watched.returnsNone silent]
      exact ⟨rb,inv,h.push.kept rfl fun _ running => running,⟨k,old,running,by simp⟩,h.recorded,
        { h.follows with }⟩
  | taken curHead out =>
    simp only [PopRuns,pc] at pop
    simp only [ConsumerAt,pc] at consumer
    simp only [consume,pc] at moved
    cases Option.some.inj moved
    obtain ⟨k,old,running,taken⟩ := pop
    obtain ⟨value,rfl⟩ := Option.ne_none_iff_exists'.mp taken
    have stored := (baselineHead h consumer.2.2.1).2
    rw [consumer.2.2.2 value rfl] at stored
    exact ⟨_,releaseWatched h running consumer.2.1 consumer.2.2.1
      (by simp [List.getD,stored]) inv (by simp [answer,pc])⟩
  | _ => simp only [PopRuns,pc] at pop

theorem watchKeeps (h : WatchedInv capacity w rb) {v : Watched} (moved : watch w a = some v) :
    ∃ rb', WatchedInv capacity v rb' := by
  obtain ⟨t,stepped,recorded⟩ := Option.bind_eq_some_iff.mp moved
  cases a with
  | push value =>
    cases Option.some.inj recorded
    exact ⟨rb,beginPushWatched h stepped⟩
  | produce =>
    cases Option.some.inj recorded
    exact produceWatched h stepped
  | pop outVal =>
    cases Option.some.inj recorded
    exact ⟨rb,beginPopWatched h stepped⟩
  | popView n => contradiction
  | consume =>
    cases Option.some.inj recorded
    exact consumeWatched h stepped

theorem watchingInv (capacity : Nat) :
    WatchedInv capacity (watching capacity) (Baseline.construct capacity) :=
  ⟨initInv capacity,rfl,rfl,⟨rfl,properNil,rfl⟩,⟨rfl,rfl,rfl,rfl⟩⟩

theorem watchInv {acts} (run : exec watch (watching capacity) acts = some w) :
    ∃ rb, WatchedInv capacity w rb :=
  preserved (I := fun w => ∃ rb, WatchedInv capacity w rb)
    (fun _ _ _ ⟨_,h⟩ moved => watchKeeps h moved) run ⟨_,watchingInv capacity⟩

theorem finishedCalls (h : WatchedInv capacity w rb) (producer : w.state.producer = .idle)
    (consumer : w.state.consumer = .idle) (thread : Thread) :
    ofThread thread ((answered w.events).map Prod.fst) = ofThread thread (begun w.events) := by
  have push := h.push
  have pop := h.pop
  simp only [PushRuns,producer,Running,List.append_nil] at push
  simp only [PopRuns,consumer,Running,List.append_nil] at pop
  cases thread with
  | producer => exact push.symm
  | consumer => exact pop.symm

theorem threadsPerm {xs ys : List Issued} (same : ∀ thread, ofThread thread xs = ofThread thread ys) :
    xs.Perm ys := by
  have other : ∀ calls : List Issued,
      ofThread .consumer calls = calls.filter (fun c => !(c.call.thread = .producer : Bool)) := by
    intro calls
    refine List.filter_congr fun c _ => ?_
    cases c.call <;> rfl
  have left := List.filter_append_perm (fun c : Issued => (c.call.thread = .producer : Bool)) xs
  have right := List.filter_append_perm (fun c : Issued => (c.call.thread = .producer : Bool)) ys
  rw [← other] at left right
  have mine := same .producer
  unfold ofThread at mine
  rw [mine,same .consumer] at left
  exact left.symm.trans right

theorem pushFoundFull (refused : answer s a = some (.pushed false)) :
    ∃ value curTail nextTail, s.producer = .loadedTail value curTail nextTail ∧
      nextTail = s.ring.head := by
  cases a with
  | produce =>
    cases pc : s.producer with
    | loadedTail value curTail nextTail =>
      exact ⟨value,curTail,nextTail,rfl,by simpa [answer,pc] using refused⟩
    | _ => simp [answer,pc] at refused
  | consume =>
    cases pc : s.consumer with
    | notEmpty outVal curHead => cases outVal <;> simp [answer,pc] at refused
    | _ => simp [answer,pc] at refused
  | _ => simp [answer] at refused

theorem popFoundEmpty {out} (refused : answer s a = some (.popped false out)) :
    ∃ outVal curHead, s.consumer = .loadedHead outVal curHead ∧ curHead = s.ring.tail := by
  cases a with
  | produce =>
    cases pc : s.producer with
    | _ => simp [answer,pc] at refused
  | consume =>
    cases pc : s.consumer with
    | loadedHead outVal curHead =>
      simp only [answer,pc] at refused
      split at refused <;> try contradiction
      exact ⟨outVal,curHead,rfl,by assumption⟩
    | notEmpty outVal curHead => cases outVal <;> simp [answer,pc] at refused
    | _ => simp [answer,pc] at refused
  | _ => simp [answer] at refused

theorem refusedFull (inv : Inv capacity s) (refused : answer s a = some (.pushed false)) :
    s.producer ≠ .idle ∧ s.pushed.length = s.consumed+capacity := by
  obtain ⟨value,curTail,nextTail,pc,full⟩ := pushFoundFull refused
  have producer := inv.producer
  have made := inv.made
  have order := inv.order
  have room := inv.room
  simp only [ProducerAt,pc] at producer
  refine ⟨by simp [pc],?_⟩
  rw [producer.2,inv.head] at full
  have lap : (s.pushed.length+1) % slots s = (s.consumed+slots s) % slots s := by
    rw [Nat.add_mod_right]
    exact full
  have := CyclicIndex.sameSlot lap (by unfold slots; omega) (by unfold slots; omega)
  unfold slots at this
  omega

theorem refusedEmpty {out} (inv : Inv capacity s) (refused : answer s a = some (.popped false out)) :
    s.consumer ≠ .idle ∧ s.pushed.length = s.consumed := by
  obtain ⟨outVal,curHead,pc,empty⟩ := popFoundEmpty refused
  have consumer := inv.consumer
  have order := inv.order
  have room := inv.room
  simp only [ConsumerAt,pc] at consumer
  refine ⟨by simp [pc],?_⟩
  rw [consumer.2,inv.head,inv.tail] at empty
  have := CyclicIndex.sameSlot empty (by unfold slots; omega) (by unfold slots; omega)
  omega

theorem atomicLinearizes (capacity : Nat) (acts : List Action) (w : Watched)
    (run : exec watch (watching capacity) acts = some w)
    (pushReturned : w.state.producer = .idle) (popReturned : w.state.consumer = .idle) :
    (∃ order final, Linearizes baseline (Baseline.construct capacity) w.events order final ∧
      (∀ thread, ofThread thread (order.map Prod.fst) = ofThread thread (begun w.events)) ∧
      final.capacity = w.state.ring.capacity ∧ final.head = w.state.ring.head ∧
      final.tail = w.state.ring.tail ∧ final.buf = w.state.ring.buf) ∧
    (∀ front a rest v, acts = front ++ a::rest → exec watch (watching capacity) front = some v →
      (answer v.state a = some (.pushed false) →
        v.state.producer ≠ .idle ∧ v.state.pushed.length = v.state.consumed+capacity) ∧
      ∀ out, answer v.state a = some (.popped false out) →
        v.state.consumer ≠ .idle ∧ v.state.pushed.length = v.state.consumed) := by
  refine ⟨?_,?_⟩
  · obtain ⟨rb,h⟩ := watchInv run
    have threads := finishedCalls h pushReturned popReturned
    have buf := h.follows.buf
    simp only [pushReturned] at buf
    exact ⟨answered w.events,rb,returnsLinearize h.recorded.proper (threadsPerm threads)
      h.recorded.legal,threads,h.follows.capacity,h.follows.head,h.follows.tail,buf.symm⟩
  · intro front a rest v _ before
    obtain ⟨rb,h⟩ := watchInv before
    exact ⟨refusedFull h.inv,fun out => refusedEmpty h.inv⟩

theorem atomicLinearizesAtOne :
    ∃ order final, Linearizes baseline (Baseline.construct 1)
      [.began ⟨0,.push 5⟩,.began ⟨1,.pop (some 0)⟩,.returned ⟨1,.pop (some 0)⟩ (.popped false (some 0)),
        .returned ⟨0,.push 5⟩ (.pushed true),.began ⟨2,.push 6⟩,
        .returned ⟨2,.push 6⟩ (.pushed false)] order final ∧ final.buf = [5,0] := by
  obtain ⟨⟨order,final,linear,_,_,_,_,buf⟩,_⟩ := atomicLinearizes 1
    [.push 5,.pop (some 0),.consume,.produce,.produce,.produce,.push 6,.produce]
    ⟨⟨⟨1,[5,0],0,1⟩,.idle,.idle,[5],0,[]⟩,
      [.began ⟨0,.push 5⟩,.began ⟨1,.pop (some 0)⟩,
        .returned ⟨1,.pop (some 0)⟩ (.popped false (some 0)),.returned ⟨0,.push 5⟩ (.pushed true),
        .began ⟨2,.push 6⟩,.returned ⟨2,.push 6⟩ (.pushed false)]⟩ (by decide) rfl rfl
  exact ⟨order,final,linear,buf⟩

end Threads
end FastReplay
