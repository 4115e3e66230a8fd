import FastReplay.ExactRing
import FastReplay.StaleReads

/-! All consumer calls of the ring under stale loads. pop and sample_indices acquire
tail_; size(), which pop_view goes by, does not: its load is relaxed, and only has to be
no older than what its thread has seen of the same index. -/
namespace FastReplay.Weak
open Stale (Producer visible)
open StoreHistory (Store)

/- pop_view has no access between its load of head_ and its branch, so the branch is taken
with that load. An array is a window on buf_ or a copy. -/
inductive Consumer where
  | idle
  | loadedHead (out : Bool) (curHead : Nat)
  | notEmpty (out : Bool) (curHead : Nat)
  | taken (curHead : Nat) (val : CInt)
  | sizeTail (n t : Nat)
  | sized (n : Nat)
  | copying (n currentHead : Nat) (dest : List CInt)
  | built (n : Nat) (array : PyArray Nat)
  | advancing (n cur : Nat) (array : PyArray Nat)
  | sampling (gen : Generator) (batchSize h : Nat)
  | gathering (physInds : List Nat) (dest : List CInt)

structure Gathered where
  slot : Nat
  val : CInt
  consumed : Nat
  deriving DecidableEq, Repr

structure State where
  heads : List Store
  released : List Nat
  tails : List Store
  writes : List (Nat × CInt)
  reads : List Nat
  producer : Producer
  seenHead : Nat
  knownReads : Nat
  consumer : Consumer
  seenTail : Nat
  knownWrites : Nat
  pushed : List (Nat × CInt)
  consumed : Nat
  popped : List (Nat × CInt)
  gathered : List Gathered

def init : State where
  heads := [⟨0,0⟩]
  released := [0]
  tails := [⟨0,0⟩]
  writes := []
  reads := []
  producer := .idle
  seenHead := 0
  knownReads := 0
  consumer := .idle
  seenTail := 0
  knownWrites := 0
  pushed := []
  consumed := 0
  popped := []
  gathered := []

/- What the loads return is chosen by the action. peekHead and peekTail are the relaxed
loads of the other thread's index that size() and empty() make. -/
inductive Action where
  | push (value : CInt)
  | loadHead (i : Nat)
  | writeSlot
  | storeTail
  | peekHead (i : Nat)
  | pop (out : Bool)
  | loadTail (i : Nat)
  | readSlot (seen : Option Nat)
  | storeHead
  | peekTail (i : Nat)
  | popView (n i : Nat)
  | sizeHead
  | currentHead
  | copyEntry (seen : Option Nat)
  | loadOwn
  | advanceHead
  | sampleIndices (gen : Generator) (batchSize : Nat)
  | sampleTail (std : StdVector) (i : Nat)
  | gather (seen : Option Nat)

def produce (capacity : Nat) (s : State) : Action → Option State
  | .push value => match s.producer with
    | .idle => do
      let own ← s.tails.getLast?
      some { s with producer := .loadedTail value own.value ((own.value+1) % (capacity+1)) }
    | _ => none
  | .loadHead i => match s.producer with
    | .loadedTail value curTail nextTail => do
      let head ← s.heads[i]?
      if s.seenHead ≤ i then
        some { s with
          seenHead := i
          knownReads := max s.knownReads head.count
          producer := if nextTail = head.value then .idle else .notFull value curTail nextTail }
      else none
    | _ => none
  | .writeSlot => match s.producer with
    | .notFull value curTail nextTail =>
      some { s with
        writes := s.writes ++ [(curTail,value)]
        producer := .written value curTail nextTail }
    | _ => none
  | .storeTail => match s.producer with
    | .written value curTail nextTail =>
      some { s with
        tails := s.tails ++ [⟨nextTail,s.writes.length⟩]
        pushed := s.pushed ++ [(curTail,value)]
        producer := .idle }
    | _ => none
  | .peekHead i => match s.producer with
    | .idle => if s.seenHead ≤ i ∧ i < s.heads.length then some { s with seenHead := i } else none
    | _ => none
  | _ => none

def release (capacity : Nat) (s : State) (head n : Nat) : State :=
  { s with
    heads := s.heads ++ [⟨(head+n) % (capacity+1),s.reads.length⟩]
    released := s.released ++ [s.consumed+n]
    consumed := s.consumed+n
    consumer := .idle }

def pop (capacity : Nat) (s : State) : Action → Option State
  | .pop out => match s.consumer with
    | .idle => do
      let own ← s.heads.getLast?
      some { s with consumer := .loadedHead out own.value }
    | _ => none
  | .loadTail i => match s.consumer with
    | .loadedHead out curHead => do
      let tail ← s.tails[i]?
      if s.seenTail ≤ i then
        some { s with
          seenTail := i
          knownWrites := max s.knownWrites tail.count
          consumer := if curHead = tail.value then .idle else .notEmpty out curHead }
      else none
    | _ => none
  | .readSlot seen => match s.consumer with
    | .notEmpty true curHead => do
      let val ← visible s.writes s.knownWrites curHead seen
      some { s with
        reads := s.reads ++ [curHead]
        consumer := .taken curHead val }
    | _ => none
  | .storeHead => match s.consumer with
    | .taken curHead val =>
      some (release capacity { s with popped := s.popped ++ [(s.consumed,val)] } curHead 1)
    | .notEmpty false curHead => some (release capacity s curHead 1)
    | _ => none
  | .peekTail i => match s.consumer with
    | .idle => if s.seenTail ≤ i ∧ i < s.tails.length then some { s with seenTail := i } else none
    | _ => none
  | _ => none

def copySlot (capacity currentHead copied : Nat) : Nat :=
  if copied < capacity+1-currentHead then currentHead+copied else copied-(capacity+1-currentHead)

def view (capacity : Nat) (s : State) : Action → Option State
  | .popView n i => match s.consumer with
    | .idle => do
      let tail ← s.tails[i]?
      if s.seenTail ≤ i then some { s with seenTail := i, consumer := .sizeTail n tail.value } else none
    | _ => none
  | .sizeHead => match s.consumer with
    | .sizeTail n t => do
      let own ← s.heads.getLast?
      some { s with
        consumer := if ExactRing.sizeFrom capacity t own.value < n then .idle else .sized n }
    | _ => none
  | .currentHead => match s.consumer with
    | .sized n => do
      let own ← s.heads.getLast?
      some { s with
        consumer := if own.value+n ≤ capacity+1 then .built n (.view own.value n)
          else .copying n own.value [] }
    | _ => none
  | .copyEntry seen => match s.consumer with
    | .copying n currentHead dest => do
      let slot := copySlot capacity currentHead dest.length
      let val ← visible s.writes s.knownWrites slot seen
      some { s with
        reads := s.reads ++ [slot]
        consumer := if dest.length+1 = n then .built n (.copied (dest ++ [val]))
          else .copying n currentHead (dest ++ [val]) }
    | _ => none
  | .loadOwn => match s.consumer with
    | .built n array => do
      let own ← s.heads.getLast?
      some { s with consumer := .advancing n own.value array }
    | _ => none
  | .advanceHead => match s.consumer with
    | .advancing n cur _ => some (release capacity s cur n)
    | _ => none
  | _ => none

/- The entries are gathered through the exposed memory, np.asarray(rb)[indices]. -/
def sample (capacity : Nat) (s : State) : Action → Option State
  | .sampleIndices gen batchSize => match s.consumer with
    | .idle => do
      let own ← s.heads.getLast?
      some { s with consumer := .sampling gen batchSize own.value }
    | _ => none
  | .sampleTail std i => match s.consumer with
    | .sampling gen batchSize h => do
      let tail ← s.tails[i]?
      if s.seenTail ≤ i then
        some { s with
          seenTail := i
          knownWrites := max s.knownWrites tail.count
          consumer := match ExactRing.sampleIndices ⟨capacity,[],h,tail.value⟩ std gen batchSize with
            | .ok (slot::physInds) => .gathering (slot::physInds) []
            | _ => .idle }
      else none
    | _ => none
  | .gather seen => match s.consumer with
    | .gathering physInds dest => do
      let slot ← physInds[dest.length]?
      let val ← visible s.writes s.knownWrites slot seen
      some { s with
        reads := s.reads ++ [slot]
        gathered := s.gathered ++ [⟨slot,val,s.consumed⟩]
        consumer := if dest.length+1 = physInds.length then .idle
          else .gathering physInds (dest ++ [val]) }
    | _ => none
  | _ => none

def step (capacity : Nat) (s : State) (a : Action) : Option State :=
  ((produce capacity s a).or (pop capacity s a)).or ((view capacity s a).or (sample capacity s a))

variable {capacity : Nat} {s t : State} {a : Action}

inductive Produced (capacity : Nat) (s : State) : Action → State → Prop where
  | begins {value own} (pc : s.producer = .idle) (last : s.tails.getLast? = some own) :
      Produced capacity s (.push value)
        { s with producer := .loadedTail value own.value ((own.value+1) % (capacity+1)) }
  | loadsHead {value curTail nextTail i head} (pc : s.producer = .loadedTail value curTail nextTail)
      (stored : s.heads[i]? = some head) (notOlder : s.seenHead ≤ i) :
      Produced capacity s (.loadHead i)
        { s with
          seenHead := i
          knownReads := max s.knownReads head.count
          producer := if nextTail = head.value then .idle else .notFull value curTail nextTail }
  | writesSlot {value curTail nextTail} (pc : s.producer = .notFull value curTail nextTail) :
      Produced capacity s .writeSlot
        { s with
          writes := s.writes ++ [(curTail,value)]
          producer := .written value curTail nextTail }
  | storesTail {value curTail nextTail} (pc : s.producer = .written value curTail nextTail) :
      Produced capacity s .storeTail
        { s with
          tails := s.tails ++ [⟨nextTail,s.writes.length⟩]
          pushed := s.pushed ++ [(curTail,value)]
          producer := .idle }
  | peeksHead {i} (pc : s.producer = .idle) (notOlder : s.seenHead ≤ i)
      (stored : i < s.heads.length) : Produced capacity s (.peekHead i) { s with seenHead := i }

theorem produceIs (moved : produce capacity s a = some t) : Produced capacity s a t := by
  cases a with
  | push value =>
    simp only [produce] at moved
    split at moved <;> try contradiction
    obtain ⟨own,last,moved⟩ := Option.bind_eq_some_iff.mp moved
    cases Option.some.inj moved
    exact .begins (by assumption) last
  | loadHead i =>
    simp only [produce] at moved
    split at moved <;> try contradiction
    obtain ⟨head,stored,moved⟩ := Option.bind_eq_some_iff.mp moved
    split at moved <;> try contradiction
    cases Option.some.inj moved
    exact .loadsHead (by assumption) stored (by assumption)
  | writeSlot =>
    simp only [produce] at moved
    split at moved <;> try contradiction
    cases Option.some.inj moved
    exact .writesSlot (by assumption)
  | storeTail =>
    simp only [produce] at moved
    split at moved <;> try contradiction
    cases Option.some.inj moved
    exact .storesTail (by assumption)
  | peekHead i =>
    simp only [produce] at moved
    split at moved <;> try contradiction
    split at moved <;> try contradiction
    rename_i seen
    cases Option.some.inj moved
    exact .peeksHead (by assumption) seen.1 seen.2
  | _ => contradiction

inductive Popped (capacity : Nat) (s : State) : Action → State → Prop where
  | begins {out own} (pc : s.consumer = .idle) (last : s.heads.getLast? = some own) :
      Popped capacity s (.pop out) { s with consumer := .loadedHead out own.value }
  | loadsTail {out curHead i tail} (pc : s.consumer = .loadedHead out curHead)
      (stored : s.tails[i]? = some tail) (notOlder : s.seenTail ≤ i) :
      Popped capacity s (.loadTail i)
        { s with
          seenTail := i
          knownWrites := max s.knownWrites tail.count
          consumer := if curHead = tail.value then .idle else .notEmpty out curHead }
  | readsSlot {curHead seen val} (pc : s.consumer = .notEmpty true curHead)
      (read : visible s.writes s.knownWrites curHead seen = some val) :
      Popped capacity s (.readSlot seen)
        { s with
          reads := s.reads ++ [curHead]
          consumer := .taken curHead val }
  | storesHead {curHead val} (pc : s.consumer = .taken curHead val) :
      Popped capacity s .storeHead
        (release capacity { s with popped := s.popped ++ [(s.consumed,val)] } curHead 1)
  | discards {curHead} (pc : s.consumer = .notEmpty false curHead) :
      Popped capacity s .storeHead (release capacity s curHead 1)
  | peeksTail {i} (pc : s.consumer = .idle) (notOlder : s.seenTail ≤ i)
      (stored : i < s.tails.length) : Popped capacity s (.peekTail i) { s with seenTail := i }

theorem popIs (moved : pop capacity s a = some t) : Popped capacity s a t := by
  cases a with
  | pop out =>
    simp only [pop] at moved
    split at moved <;> try contradiction
    obtain ⟨own,last,moved⟩ := Option.bind_eq_some_iff.mp moved
    cases Option.some.inj moved
    exact .begins (by assumption) last
  | loadTail i =>
    simp only [pop] at moved
    split at moved <;> try contradiction
    obtain ⟨tail,stored,moved⟩ := Option.bind_eq_some_iff.mp moved
    split at moved <;> try contradiction
    cases Option.some.inj moved
    exact .loadsTail (by assumption) stored (by assumption)
  | readSlot seen =>
    simp only [pop] at moved
    split at moved <;> try contradiction
    obtain ⟨val,read,moved⟩ := Option.bind_eq_some_iff.mp moved
    cases Option.some.inj moved
    exact .readsSlot (by assumption) read
  | storeHead =>
    simp only [pop] at moved
    split at moved <;> try contradiction
    · cases Option.some.inj moved
      exact .storesHead (by assumption)
    · cases Option.some.inj moved
      exact .discards (by assumption)
  | peekTail i =>
    simp only [pop] at moved
    split at moved <;> try contradiction
    split at moved <;> try contradiction
    rename_i seen
    cases Option.some.inj moved
    exact .peeksTail (by assumption) seen.1 seen.2
  | _ => contradiction

inductive Viewed (capacity : Nat) (s : State) : Action → State → Prop where
  | loadsTail {n i tail} (pc : s.consumer = .idle) (stored : s.tails[i]? = some tail)
      (notOlder : s.seenTail ≤ i) :
      Viewed capacity s (.popView n i) { s with seenTail := i, consumer := .sizeTail n tail.value }
  | counts {n t own} (pc : s.consumer = .sizeTail n t) (last : s.heads.getLast? = some own) :
      Viewed capacity s .sizeHead
        { s with consumer := if ExactRing.sizeFrom capacity t own.value < n then .idle else .sized n }
  | branches {n own} (pc : s.consumer = .sized n) (last : s.heads.getLast? = some own) :
      Viewed capacity s .currentHead
        { s with
          consumer := if own.value+n ≤ capacity+1 then .built n (.view own.value n)
            else .copying n own.value [] }
  | copies {n currentHead dest seen val} (pc : s.consumer = .copying n currentHead dest)
      (read : visible s.writes s.knownWrites (copySlot capacity currentHead dest.length) seen
        = some val) :
      Viewed capacity s (.copyEntry seen)
        { s with
          reads := s.reads ++ [copySlot capacity currentHead dest.length]
          consumer := if dest.length+1 = n then .built n (.copied (dest ++ [val]))
            else .copying n currentHead (dest ++ [val]) }
  | loadsOwn {n array own} (pc : s.consumer = .built n array) (last : s.heads.getLast? = some own) :
      Viewed capacity s .loadOwn { s with consumer := .advancing n own.value array }
  | advances {n cur array} (pc : s.consumer = .advancing n cur array) :
      Viewed capacity s .advanceHead (release capacity s cur n)

theorem viewIs (moved : view capacity s a = some t) : Viewed capacity s a t := by
  cases a with
  | popView n i =>
    simp only [view] at moved
    split at moved <;> try contradiction
    obtain ⟨tail,stored,moved⟩ := Option.bind_eq_some_iff.mp moved
    split at moved <;> try contradiction
    cases Option.some.inj moved
    exact .loadsTail (by assumption) stored (by assumption)
  | sizeHead =>
    simp only [view] at moved
    split at moved <;> try contradiction
    obtain ⟨own,last,moved⟩ := Option.bind_eq_some_iff.mp moved
    cases Option.some.inj moved
    exact .counts (by assumption) last
  | currentHead =>
    simp only [view] at moved
    split at moved <;> try contradiction
    obtain ⟨own,last,moved⟩ := Option.bind_eq_some_iff.mp moved
    cases Option.some.inj moved
    exact .branches (by assumption) last
  | copyEntry seen =>
    simp only [view] at moved
    split at moved <;> try contradiction
    obtain ⟨val,read,moved⟩ := Option.bind_eq_some_iff.mp moved
    cases Option.some.inj moved
    exact .copies (by assumption) read
  | loadOwn =>
    simp only [view] at moved
    split at moved <;> try contradiction
    obtain ⟨own,last,moved⟩ := Option.bind_eq_some_iff.mp moved
    cases Option.some.inj moved
    exact .loadsOwn (by assumption) last
  | advanceHead =>
    simp only [view] at moved
    split at moved <;> try contradiction
    cases Option.some.inj moved
    exact .advances (by assumption)
  | _ => contradiction

inductive Sampled (capacity : Nat) (s : State) : Action → State → Prop where
  | begins {gen batchSize own} (pc : s.consumer = .idle) (last : s.heads.getLast? = some own) :
      Sampled capacity s (.sampleIndices gen batchSize)
        { s with consumer := .sampling gen batchSize own.value }
  | loadsTail {gen batchSize h std i tail} (pc : s.consumer = .sampling gen batchSize h)
      (stored : s.tails[i]? = some tail) (notOlder : s.seenTail ≤ i) :
      Sampled capacity s (.sampleTail std i)
        { s with
          seenTail := i
          knownWrites := max s.knownWrites tail.count
          consumer := match ExactRing.sampleIndices ⟨capacity,[],h,tail.value⟩ std gen batchSize with
            | .ok (slot::physInds) => .gathering (slot::physInds) []
            | _ => .idle }
  | gathers {physInds dest slot seen val} (pc : s.consumer = .gathering physInds dest)
      (here : physInds[dest.length]? = some slot)
      (read : visible s.writes s.knownWrites slot seen = some val) :
      Sampled capacity s (.gather seen)
        { s with
          reads := s.reads ++ [slot]
          gathered := s.gathered ++ [⟨slot,val,s.consumed⟩]
          consumer := if dest.length+1 = physInds.length then .idle
            else .gathering physInds (dest ++ [val]) }

theorem sampleIs (moved : sample capacity s a = some t) : Sampled capacity s a t := by
  cases a with
  | sampleIndices gen batchSize =>
    simp only [sample] at moved
    split at moved <;> try contradiction
    obtain ⟨own,last,moved⟩ := Option.bind_eq_some_iff.mp moved
    cases Option.some.inj moved
    exact .begins (by assumption) last
  | sampleTail std i =>
    simp only [sample] at moved
    split at moved <;> try contradiction
    obtain ⟨tail,stored,moved⟩ := Option.bind_eq_some_iff.mp moved
    split at moved <;> try contradiction
    cases Option.some.inj moved
    exact .loadsTail (by assumption) stored (by assumption)
  | gather seen =>
    simp only [sample] at moved
    split at moved <;> try contradiction
    obtain ⟨slot,here,moved⟩ := Option.bind_eq_some_iff.mp moved
    obtain ⟨val,read,moved⟩ := Option.bind_eq_some_iff.mp moved
    cases Option.some.inj moved
    exact .gathers (by assumption) here read
  | _ => contradiction

theorem stepCases (moved : step capacity s a = some t) :
    Produced capacity s a t ∨ Popped capacity s a t ∨ Viewed capacity s a t ∨
      Sampled capacity s a t := by
  simp only [step,Option.or_eq_some_iff] at moved
  rcases moved with (first | ⟨_,second⟩) | ⟨_,third | ⟨_,last⟩⟩
  · exact .inl (produceIs first)
  · exact .inr (.inl (popIs second))
  · exact .inr (.inr (.inl (viewIs third)))
  · exact .inr (.inr (.inr (sampleIs last)))

end FastReplay.Weak
