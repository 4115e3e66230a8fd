import FastReplay.EffectOrder
import FastReplay.Linearization
import FastReplay.SizeRace

/-! Every call the two threads of the ring may make while the other one runs, and the
bounded queue each of them is meant to act on. pop_view returns once head_ is stored,
and sampling goes through the exposed memory: np.asarray(rb)[rb.sample_indices(b)]. -/
namespace FastReplay.Spsc
open CallHistory EffectOrder
open Threads (Thread slots)
open Monitoring (Query Reply)

inductive Call where
  | push (value : CInt)
  | pop (outVal : Option CInt)
  | popView (n : Nat)
  | ask (thread : Thread) (query : Query)
  | sample (gen : Generator) (batchSize : Nat)

def Call.thread : Call → Thread
  | .push _ => .producer
  | .pop _ | .popView _ | .sample _ _ => .consumer
  | .ask thread _ => thread

inductive Answer where
  | pushed (ok : Bool)
  | popped (ok : Bool) (out : Option CInt)
  | entries (values : List CInt)
  | told (reply : Reply)
  | raised (e : Exception)
  deriving DecidableEq, Repr

abbrev Ticket := Issued Call

def notEnough : Answer := .raised (.runtimeError "Not enough data.")

def sampled (std : StdVector) (gen : Generator) (batchSize : Nat) (entries : List CInt) : Answer :=
  if entries.length = 0 then .raised (.runtimeError "sample_indices: buffer is empty")
  else if std.maxWords < batchSize then .raised .lengthError
  else .entries ((List.range batchSize).map fun i => entries.getD (gen.draw (entries.length-1) i) 0)

def reply (entries : List CInt) : Query → Reply
  | .size => .count entries.length
  | .emptyHeadFirst | .emptyTailFirst => .flag entries.isEmpty

def serve (std : StdVector) (capacity : Nat) (entries : List CInt) (issued : Ticket) :
    Answer × List CInt :=
  match issued.call with
  | .push value =>
    (.pushed (BoundedQueue.offer capacity entries value).1,(BoundedQueue.offer capacity entries value).2)
  | .pop outVal =>
    (.popped (ExactRing.popped entries outVal).1 (ExactRing.popped entries outVal).2,
      (BoundedQueue.poll entries).2)
  | .popView n =>
    if entries.length < n then (notEnough,entries) else (.entries (entries.take n),entries.drop n)
  | .ask _ query => (.told (reply entries query),entries)
  | .sample gen batchSize => (sampled std gen batchSize entries,entries)

inductive Stage where
  | moving
  | asking (query : Query) (loaded : Nat)
  | sampling (gen : Generator) (batchSize h : Nat)
  | gathering (physInds : List Nat) (dest : List CInt)

structure State where
  now : Threads.State
  calls : Thread → Option (Ticket × Stage)
  events : List (Event Ticket Answer)

def init (capacity : Nat) : State := ⟨Threads.init capacity,fun _ => none,[]⟩

inductive Action where
  | call (c : Call)
  | go (thread : Thread)

def first (s : Threads.State) : Call → Option (Threads.State × Stage)
  | .push value => (Threads.step s (.push value)).map fun now => (now,.moving)
  | .pop outVal => (Threads.step s (.pop outVal)).map fun now => (now,.moving)
  | .popView n => (Threads.step s (.popView n)).map fun now => (now,.moving)
  | .ask _ query => some (s,.asking query (query.load s.ring))
  | .sample gen batchSize => some (s,.sampling gen batchSize s.ring.head)

def contents (r : ExactRing) : PyArray Nat → List CInt
  | .view start count => (r.buf.drop start).take count
  | .copied values => values

def ofRing : Threads.Answer → Answer
  | .pushed ok => .pushed ok
  | .popped ok out => .popped ok out

def last (s : Threads.State) : Thread → Option Answer
  | .producer => (Threads.answer s .produce).map ofRing
  | .consumer => match s.consumer with
    | .sizeTail n t =>
      if ExactRing.sizeFrom s.ring.capacity t s.ring.head < n then some notEnough else none
    | .advancing _ _ array => some (.entries (contents s.ring array))
    | _ => (Threads.answer s .consume).map ofRing

def leave (s : Threads.State) : Threads.State := match s.consumer with
  | .reading n _ i =>
    { s with received := s.received ++ List.replicate (n-i) none, consumer := .idle }
  | _ => s

def move (s : Threads.State) : Thread → Option Threads.State
  | .producer => Threads.produce s
  | .consumer => (Threads.consume s).map leave

def access (std : StdVector) (s : Threads.State) (thread : Thread) :
    Stage → Option (Threads.State × (Stage ⊕ Answer))
  | .moving => do
    let now ← move s thread
    some (now,match last s thread with
      | some answer => .inr answer
      | none => .inl .moving)
  | .asking query loaded => some (s,.inr (.told (query.reply loaded s.ring)))
  | .sampling gen batchSize h =>
    match ExactRing.sampleIndices { s.ring with head := h } std gen batchSize with
    | .error e => some (s,.inr (.raised e))
    | .ok [] => some (s,.inr (.entries []))
    | .ok (i::physInds) => some (s,.inl (.gathering (i::physInds) []))
  | .gathering physInds dest => do
    let i ← physInds[dest.length]?
    let value ← s.ring.buf[i]?
    some (s,if dest.length+1 = physInds.length then .inr (.entries (dest ++ [value]))
      else .inl (.gathering physInds (dest ++ [value])))

def begin (s : State) (call : Call) : Option State := match s.calls call.thread with
  | some _ => none
  | none => do
    let (now,stage) ← first s.now call
    let issued : Ticket := ⟨(begun s.events).length,call⟩
    some ⟨now,Function.update s.calls call.thread (some (issued,stage)),
      s.events ++ [.began issued]⟩

def go (std : StdVector) (s : State) (thread : Thread) : Option State := do
  let (issued,stage) ← s.calls thread
  let (now,after) ← access std s.now thread stage
  match after with
  | .inl stage => some { s with
      now := now
      calls := Function.update s.calls thread (some (issued,stage)) }
  | .inr answer => some ⟨now,Function.update s.calls thread none,
      s.events ++ [.returned issued answer]⟩

def step (std : StdVector) (s : State) : Action → Option State
  | .call c => begin s c
  | .go thread => go std s thread

theorem beginIs {s t : State} {call} (moved : begin s call = some t) :
    s.calls call.thread = none ∧ ∃ now stage, first s.now call = some (now,stage) ∧
      t = ⟨now,Function.update s.calls call.thread (some (⟨(begun s.events).length,call⟩,stage)),
        s.events ++ [.began ⟨(begun s.events).length,call⟩]⟩ := by
  unfold begin at moved
  split at moved <;> try contradiction
  rename_i free
  obtain ⟨⟨now,stage⟩,began,moved⟩ := Option.bind_eq_some_iff.mp moved
  exact ⟨free,now,stage,began,(Option.some.inj moved).symm⟩

theorem goIs {std} {s t : State} {thread} (moved : go std s thread = some t) :
    ∃ issued stage now after, s.calls thread = some (issued,stage) ∧
      access std s.now thread stage = some (now,after) ∧ t = match after with
        | .inl stage => { s with
          now := now
          calls := Function.update s.calls thread (some (issued,stage)) }
        | .inr answer => ⟨now,Function.update s.calls thread none,
          s.events ++ [.returned issued answer]⟩ := by
  obtain ⟨⟨issued,stage⟩,here,moved⟩ := Option.bind_eq_some_iff.mp moved
  obtain ⟨⟨now,after⟩,accessed,moved⟩ := Option.bind_eq_some_iff.mp moved
  refine ⟨issued,stage,now,after,here,accessed,?_⟩
  cases after with
  | inl stage => exact (Option.some.inj moved).symm
  | inr answer => exact (Option.some.inj moved).symm

end FastReplay.Spsc
