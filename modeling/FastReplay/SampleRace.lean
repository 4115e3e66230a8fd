import FastReplay.Interleaving
import FastReplay.StoreHistory

/-! sample_indices beside a producer. The two threads are those of Interleaving,
but each reads the other's index from the history of its stores: any store that is
not older than the last one it saw. A thread's own index it knows exactly. -/
namespace FastReplay.Sampling
open GuardedRun StoreHistory
open Threads (slots)
open Stale (Producer)

structure Sampler where
  batchSize : Nat
  h : Nat
  deriving DecidableEq, Repr

structure State where
  now : Threads.State
  heads : List Store
  tails : List Store
  seenHead : Nat
  seenTail : Nat
  sampler : Option Sampler
  samples : List (Except Exception (List Nat))

def init (capacity : Nat) : State :=
  ⟨Threads.init capacity,[⟨0,0⟩],[⟨0,0⟩],0,0,none,[]⟩

inductive Action where
  | push (value : CInt)
  | loadHead (i : Nat)
  | produce
  | pop (outVal : Option CInt)
  | popView (n j : Nat)
  | loadTail (j : Nat)
  | consume
  | leave
  | advanceHead (n : Nat)
  | sampleIndices (batchSize : Nat)
  | sampleTail (std : StdVector) (gen : Generator) (j : Nat)

def loadHead (s : State) (i : Nat) : Option State := match s.now.producer with
  | .loadedTail value curTail nextTail => do
    let head ← load s.heads s.seenHead i
    some { s with
      now := { s.now with
        producer := if nextTail = head.value then .idle else .notFull value curTail nextTail }
      seenHead := i }
  | _ => none

def produce (s : State) : Option State := match s.now.producer with
  | .loadedTail _ _ _ => none
  | .written _ _ _ => do
    let now ← Threads.produce s.now
    some { s with now := now, tails := s.tails ++ [⟨now.ring.tail,now.pushed.length⟩] }
  | _ => do
    let now ← Threads.produce s.now
    some { s with now := now }

def loadTail (s : State) (j : Nat) : Option State := match s.now.consumer with
  | .loadedHead outVal curHead => do
    let tail ← load s.tails s.seenTail j
    some { s with
      now := { s.now with
        consumer := if curHead = tail.value then .idle else .notEmpty outVal curHead }
      seenTail := j }
  | _ => none

def storesHead : Threads.Consumer → Bool
  | .notEmpty none _ | .taken _ _ | .advancing _ _ _ => true
  | _ => false

def consume (s : State) : Option State := match s.now.consumer with
  | .loadedHead _ _ => none
  | pc => do
    let now ← Threads.consume s.now
    some { s with
      now := now
      heads := if storesHead pc then s.heads ++ [⟨now.ring.head,now.consumed⟩] else s.heads }

/- The caller need not read an array to its end before it goes on. -/
def leave (s : State) : Option State := match s.now.consumer with
  | .reading n _ i => some { s with
      now := { s.now with
        received := s.now.received ++ List.replicate (n-i) none
        consumer := .idle } }
  | _ => none

/- advance_head called by itself, for at most the size the consumer last saw. -/
def advanceHead (s : State) (n : Nat) : Option State := do
  let tail ← s.tails[s.seenTail]?
  if n ≤ ExactRing.sizeFrom s.now.ring.capacity tail.value s.now.ring.head then
    let now := Threads.release s.now ((s.now.ring.head+n) % slots s.now) n
      (s.now.received ++ List.replicate n none) .idle
    some { s with now := now, heads := s.heads ++ [⟨now.ring.head,now.consumed⟩] }
  else none

def sampleTail (s : State) (std : StdVector) (gen : Generator) (j : Nat) : Option State := do
  let call ← s.sampler
  let tail ← load s.tails s.seenTail j
  some { s with
    seenTail := j
    sampler := none
    samples := s.samples ++ [ExactRing.sampleIndices
      { s.now.ring with head := call.h, tail := tail.value } std gen call.batchSize] }

def beginCall (s : State) (next : State → Option State) : Option State :=
  match s.now.consumer,s.sampler with
  | .idle,none => next s
  | _,_ => none

def step (s : State) : Action → Option State
  | .push value => do
    let now ← Threads.beginPush s.now value
    some { s with now := now }
  | .loadHead i => loadHead s i
  | .produce => produce s
  | .pop outVal => beginCall s fun s =>
      some { s with now := { s.now with consumer := .loadedHead outVal s.now.ring.head } }
  | .popView n j => beginCall s fun s => do
      let tail ← load s.tails s.seenTail j
      some { s with now := { s.now with consumer := .sizeTail n tail.value }, seenTail := j }
  | .loadTail j => loadTail s j
  | .consume => consume s
  | .leave => leave s
  | .advanceHead n => beginCall s fun s => advanceHead s n
  | .sampleIndices batchSize => beginCall s fun s =>
      some { s with sampler := some ⟨batchSize,s.now.ring.head⟩ }
  | .sampleTail std gen j => sampleTail s std gen j

def claimed : Producer → Nat
  | .notFull _ _ _ | .written _ _ _ => 1
  | _ => 0

def needed : Threads.Consumer → Nat
  | .notEmpty _ _ | .taken _ _ => 1
  | .sized n | .located n _ | .contiguous n _ | .copying n _ _ | .built n _ | .advancing n _ _ => n
  | _ => 0

structure Inv (capacity : Nat) (s : State) : Prop where
  threads : Threads.Inv capacity s.now
  heads : History (slots s.now) s.now.consumed s.heads
  tails : History (slots s.now) s.now.pushed.length s.tails
  room : ∃ c, Knows s.heads s.seenHead c ∧
    s.now.pushed.length + claimed s.now.producer ≤ c + s.now.ring.capacity
  enough : Knows s.tails s.seenTail (s.now.consumed + needed s.now.consumer)
  size : ∀ n t, s.now.consumer = .sizeTail n t → ∃ x, s.tails[s.seenTail]? = some x ∧ x.value = t
  sampler : ∀ call, s.sampler = some call → s.now.consumer = .idle ∧ call.h = s.now.ring.head

theorem initInv (capacity : Nat) : Inv capacity (init capacity) where
  threads := Threads.initInv capacity
  heads := historyStart _
  tails := historyStart _
  room := ⟨0,⟨⟨0,0⟩,rfl,Nat.le_refl _⟩,by simp [init,Threads.init,claimed]⟩
  enough := ⟨⟨0,0⟩,rfl,Nat.le_refl _⟩
  size n t pc := by simp [init,Threads.init] at pc
  sampler call some := by simp [init] at some

variable {capacity : Nat} {s t : State}

theorem pushKeeps {value} (inv : Inv capacity s) (moved : step s (.push value) = some t) :
    Inv capacity t := by
  obtain ⟨now,begun,moved⟩ := Option.bind_eq_some_iff.mp moved
  cases Option.some.inj moved
  have threads := Threads.beginPushKeeps inv.threads begun
  have room := inv.room
  obtain ⟨pc,rfl⟩ := Threads.beginPushIs begun
  simp only [claimed,pc] at room
  exact { inv with threads := threads, room := room }

theorem loadHeadKeeps {i} (inv : Inv capacity s) (moved : loadHead s i = some t) : Inv capacity t := by
  have producer := inv.threads.producer
  unfold loadHead at moved
  split at moved <;> try contradiction
  rename_i value curTail nextTail pc
  obtain ⟨head,loaded,moved⟩ := Option.bind_eq_some_iff.mp moved
  cases Option.some.inj moved
  obtain ⟨c,knows,room⟩ := inv.room
  obtain ⟨found,least⟩ := knows.load inv.heads loaded
  have released := inv.heads.below i head found
  simp only [Threads.ProducerAt,pc] at producer
  simp only [claimed,pc] at room
  by_cases full : nextTail = head.value
  · refine { inv with
      threads := { inv.threads with producer := ?_ }
      room := ⟨head.count,⟨head,found,Nat.le_refl _⟩,?_⟩ }
    · simp only [if_pos full]
      trivial
    · simp only [if_pos full,claimed]
      omega
  · have apart : s.now.pushed.length < head.count+s.now.ring.capacity := by
      by_contra lap
      have same : s.now.pushed.length+1 = head.count+slots s.now := by unfold slots; omega
      apply full
      rw [producer.2,same,Nat.add_mod_right,inv.heads.value i head found]
    refine { inv with
      threads := { inv.threads with producer := ?_ }
      room := ⟨head.count,⟨head,found,Nat.le_refl _⟩,?_⟩ }
    · simp only [if_neg full]
      exact ⟨producer.1,producer.2,by dsimp only; omega⟩
    · simp only [if_neg full,claimed]
      omega

theorem produceKeeps (inv : Inv capacity s) (moved : produce s = some t) : Inv capacity t := by
  obtain ⟨c,knows,room⟩ := inv.room
  unfold produce at moved
  split at moved <;> try contradiction
  · rename_i value curTail nextTail pc
    obtain ⟨now,ran,moved⟩ := Option.bind_eq_some_iff.mp moved
    cases Option.some.inj moved
    have threads := Threads.produceKeeps inv.threads ran
    have tail := threads.tail
    simp only [Threads.produce,pc] at ran
    cases Option.some.inj ran
    simp only [claimed,pc] at room
    refine {
      threads := threads
      heads := inv.heads
      tails := ?_
      room := ⟨c,knows,by simp only [claimed,List.length_append,List.length_singleton]; omega⟩
      enough := inv.enough.stored _
      size := fun n x at' => (inv.size n x at').imp fun _ found => ⟨AppendLog.kept found.1,found.2⟩
      sampler := inv.sampler }
    dsimp only at tail ⊢
    rw [tail]
    exact inv.tails.store (by simp)
  · rename_i notLoaded notWritten
    obtain ⟨now,ran,moved⟩ := Option.bind_eq_some_iff.mp moved
    cases Option.some.inj moved
    have threads := Threads.produceKeeps inv.threads ran
    cases pc : s.now.producer with
    | idle => simp [Threads.produce,pc] at ran
    | loadedTail value curTail nextTail => exact absurd pc (notLoaded _ _ _)
    | written value curTail nextTail => exact absurd pc (notWritten _ _ _)
    | notFull value curTail nextTail =>
      simp only [Threads.produce,pc] at ran
      cases Option.some.inj ran
      simp only [claimed,pc] at room
      exact { inv with threads := threads, room := ⟨c,knows,room⟩ }

theorem beginKeeps {next : State → Option State} (inv : Inv capacity s)
    (moved : beginCall s next = some t) :
    s.now.consumer = .idle ∧ s.sampler = none ∧ next s = some t ∧
      s.now.received.length = s.now.consumed := by
  have consumer := inv.threads.consumer
  unfold beginCall at moved
  split at moved <;> try contradiction
  rename_i idle free
  simp only [Threads.ConsumerAt,idle] at consumer
  exact ⟨idle,free,moved,consumer⟩

theorem popKeeps {outVal} (inv : Inv capacity s) (moved : step s (.pop outVal) = some t) :
    Inv capacity t := by
  simp only [step] at moved
  obtain ⟨idle,free,moved,count⟩ := beginKeeps inv moved
  cases Option.some.inj moved
  have enough := inv.enough
  simp only [needed,idle] at enough
  exact { inv with
    threads := { inv.threads with consumer := ⟨count,rfl⟩ }
    enough := enough
    size := fun n x at' => by contradiction
    sampler := fun call some => by simp [free] at some }

theorem popViewKeeps {n j} (inv : Inv capacity s) (moved : step s (.popView n j) = some t) :
    Inv capacity t := by
  simp only [step] at moved
  obtain ⟨idle,free,moved,count⟩ := beginKeeps inv moved
  obtain ⟨tail,loaded,moved⟩ := Option.bind_eq_some_iff.mp moved
  cases Option.some.inj moved
  obtain ⟨found,least⟩ := inv.enough.load inv.tails loaded
  simp only [needed,idle] at least
  exact { inv with
    threads := { inv.threads with
      consumer := ⟨count,tail.count,inv.tails.value j tail found,by dsimp only; omega,
        inv.tails.below j tail found⟩ }
    enough := ⟨tail,found,least⟩
    size := by
      rintro _ _ ⟨⟩
      exact ⟨tail,found,rfl⟩
    sampler := fun call some => by simp [free] at some }

theorem loadTailKeeps {j} (inv : Inv capacity s) (moved : loadTail s j = some t) : Inv capacity t := by
  have consumer := inv.threads.consumer
  unfold loadTail at moved
  split at moved <;> try contradiction
  rename_i outVal curHead pc
  obtain ⟨tail,loaded,moved⟩ := Option.bind_eq_some_iff.mp moved
  cases Option.some.inj moved
  obtain ⟨found,least⟩ := inv.enough.load inv.tails loaded
  have published := inv.tails.below j tail found
  simp only [Threads.ConsumerAt,pc] at consumer
  obtain ⟨count,here⟩ := consumer
  have busy : s.sampler = none := by
    by_contra sampling
    obtain ⟨call,some⟩ := Option.ne_none_iff_exists'.mp sampling
    simpa [pc] using (inv.sampler call some).1
  simp only [needed,pc] at least
  by_cases empty : curHead = tail.value
  · refine { inv with
      threads := { inv.threads with consumer := ?_ }
      enough := ⟨tail,found,?_⟩
      size := ?_
      sampler := fun call some => ?_ }
    · simp only [Threads.ConsumerAt,if_pos empty]
      exact count
    · simpa only [if_pos empty,needed] using least
    · simp [empty]
    · simp [busy] at some
  · have fewer : s.now.consumed < tail.count := by
      by_contra none
      have same : s.now.consumed = tail.count := by omega
      exact empty (by rw [here,inv.threads.head,inv.tails.value j tail found,same])
    refine { inv with
      threads := { inv.threads with consumer := ?_ }
      enough := ⟨tail,found,?_⟩
      size := ?_
      sampler := fun call some => ?_ }
    · simp only [Threads.ConsumerAt,if_neg empty]
      exact ⟨count,here,by omega⟩
    · simp only [if_neg empty,needed]
      exact fewer
    · simp [empty]
    · simp [busy] at some

structure Releases (s t : Threads.State) : Prop where
  stays : storesHead s.consumer = false → t.consumed = s.consumed
  needs : (∀ n x, s.consumer ≠ .sizeTail n x) → (∀ outVal h, s.consumer ≠ .loadedHead outVal h) →
    t.consumed + needed t.consumer ≤ s.consumed + needed s.consumer
  sized : ∀ n x, t.consumer ≠ .sizeTail n x

theorem consumeReleases {s t : Threads.State} (moved : Threads.consume s = some t) : Releases s t := by
  cases pc : s.consumer with
  | idle => simp [Threads.consume,pc] at moved
  | loadedHead outVal curHead =>
    simp only [Threads.consume,pc] at moved
    cases Option.some.inj moved
    refine ⟨fun _ => rfl,fun _ other => absurd pc (other _ _),fun n x => ?_⟩
    dsimp only
    split <;> simp
  | notEmpty outVal curHead =>
    cases outVal with
    | none =>
      simp only [Threads.consume,pc] at moved
      cases Option.some.inj moved
      exact ⟨by simp [storesHead,pc],by simp [Threads.release,needed,pc],by simp [Threads.release]⟩
    | some old =>
      simp only [Threads.consume,pc] at moved
      obtain ⟨value,_,moved⟩ := Option.bind_eq_some_iff.mp moved
      cases Option.some.inj moved
      exact ⟨fun _ => rfl,by simp [needed,pc],by simp⟩
  | taken curHead out =>
    simp only [Threads.consume,pc] at moved
    cases Option.some.inj moved
    exact ⟨by simp [storesHead,pc],by simp [Threads.release,needed,pc],by simp [Threads.release]⟩
  | sizeTail n x =>
    simp only [Threads.consume,pc] at moved
    cases Option.some.inj moved
    refine ⟨fun _ => rfl,fun other _ => absurd pc (other _ _),fun n x => ?_⟩
    dsimp only
    split <;> simp
  | located n currentHead =>
    simp only [Threads.consume,pc] at moved
    cases Option.some.inj moved
    refine ⟨fun _ => rfl,fun _ _ => ?_,fun n x => ?_⟩
    · dsimp only
      split <;> simp [needed,pc]
    · dsimp only
      split <;> simp
  | copying n currentHead dest =>
    simp only [Threads.consume,pc] at moved
    obtain ⟨value,_,moved⟩ := Option.bind_eq_some_iff.mp moved
    cases Option.some.inj moved
    refine ⟨fun _ => rfl,fun _ _ => ?_,fun n x => ?_⟩
    · dsimp only
      split <;> simp [needed,pc]
    · dsimp only
      split <;> simp
  | advancing n cur array =>
    simp only [Threads.consume,pc] at moved
    cases Option.some.inj moved
    refine ⟨by simp [storesHead,pc],fun _ _ => ?_,fun n x => ?_⟩
    · simp only [Threads.release]
      split <;> simp [needed,pc]
    · simp only [Threads.release]
      split <;> simp
  | reading n array i =>
    simp only [Threads.consume,pc] at moved
    obtain ⟨value,_,moved⟩ := Option.bind_eq_some_iff.mp moved
    cases Option.some.inj moved
    refine ⟨fun _ => rfl,fun _ _ => ?_,fun n x => ?_⟩
    · dsimp only
      split <;> simp [needed,pc]
    · dsimp only
      split <;> simp
  | sized n =>
    simp only [Threads.consume,pc] at moved
    cases Option.some.inj moved
    exact ⟨fun _ => rfl,by simp [needed,pc],by simp⟩
  | contiguous n currentHead =>
    simp only [Threads.consume,pc] at moved
    cases Option.some.inj moved
    exact ⟨fun _ => rfl,by simp [needed,pc],by simp⟩
  | built n array =>
    simp only [Threads.consume,pc] at moved
    cases Option.some.inj moved
    exact ⟨fun _ => rfl,by simp [needed,pc],by simp⟩

theorem Inv.notSampling (inv : Inv capacity s) (busy : s.now.consumer ≠ .idle) : s.sampler = none := by
  by_contra sampling
  obtain ⟨call,some⟩ := Option.ne_none_iff_exists'.mp sampling
  exact busy (inv.sampler call some).1

theorem sizeTailNeeds {n x} {now : Threads.State} (inv : Inv capacity s)
    (pc : s.now.consumer = .sizeTail n x) (moved : Threads.consume s.now = some now) :
    Knows s.tails s.seenTail (now.consumed + needed now.consumer) := by
  obtain ⟨tail,found,rfl⟩ := inv.size n x pc
  obtain ⟨again,seen,least⟩ := inv.enough
  cases Option.some.inj (seen.symm.trans found)
  simp only [needed,pc] at least
  have size := inv.threads.sizeSeen least (inv.tails.below _ tail found)
  rw [← inv.tails.value _ tail found] at size
  simp only [Threads.consume,pc] at moved
  cases Option.some.inj moved
  refine ⟨tail,found,?_⟩
  by_cases short : ExactRing.sizeFrom s.now.ring.capacity tail.value s.now.ring.head < n
  · simp only [if_pos short,needed]
    exact least
  · simp only [if_neg short,needed]
    omega

theorem consumeKeeps (inv : Inv capacity s) (moved : consume s = some t) : Inv capacity t := by
  unfold consume at moved
  split at moved <;> try contradiction
  rename_i notLoaded
  obtain ⟨now,ran,moved⟩ := Option.bind_eq_some_iff.mp moved
  cases Option.some.inj moved
  have threads := Threads.consumeKeeps inv.threads ran
  have drains := Threads.consumeDrains ran
  have releases := consumeReleases ran
  have same : slots now = slots s.now := congrArg (· + 1) drains.ring.1
  have head := threads.head
  have busy := inv.notSampling fun idle => by simp [Threads.consume,idle] at ran
  obtain ⟨c,knows,room⟩ := inv.room
  rw [← drains.pushed,← drains.producer,← drains.ring.1] at room
  have tails := inv.tails
  rw [← same,← drains.pushed] at tails
  have enough : Knows s.tails s.seenTail (now.consumed + needed now.consumer) := by
    by_cases sizing : ∃ n x, s.now.consumer = .sizeTail n x
    · obtain ⟨n,x,pc⟩ := sizing
      exact sizeTailNeeds inv pc ran
    · exact inv.enough.less (releases.needs (fun n x pc => sizing ⟨n,x,pc⟩) notLoaded)
  have size : ∀ n x, now.consumer = .sizeTail n x →
      ∃ y, s.tails[s.seenTail]? = some y ∧ y.value = x := fun n x at' => absurd at' (releases.sized n x)
  by_cases stores : storesHead s.now.consumer = true
  · refine ⟨threads,?_,tails,⟨c,?_,room⟩,enough,size,fun call some => by simp [busy] at some⟩
    · rw [if_pos stores,head,same]
      exact inv.heads.store drains.grows
    · rw [if_pos stores]
      exact knows.stored _
  · refine ⟨threads,?_,tails,⟨c,?_,room⟩,enough,size,fun call some => by simp [busy] at some⟩
    · rw [if_neg stores,releases.stays (Bool.eq_false_iff.mpr stores),same]
      exact inv.heads
    · rw [if_neg stores]
      exact knows

theorem leaveKeeps (inv : Inv capacity s) (moved : leave s = some t) : Inv capacity t := by
  have consumer := inv.threads.consumer
  have enough := inv.enough
  unfold leave at moved
  split at moved <;> try contradiction
  rename_i n array i pc
  have busy := inv.notSampling fun idle => by simp [idle] at pc
  cases Option.some.inj moved
  simp only [Threads.ConsumerAt,pc] at consumer
  simp only [needed,pc] at enough
  exact { inv with
    threads := { inv.threads with consumer := by simpa [Threads.ConsumerAt] using consumer.1 }
    enough := enough
    size := fun n x at' => by simp at at'
    sampler := fun call some => by simp [busy] at some }

theorem advanceHeadKeeps {n} (inv : Inv capacity s) (moved : step s (.advanceHead n) = some t) :
    Inv capacity t := by
  simp only [step] at moved
  obtain ⟨idle,free,moved,count⟩ := beginKeeps inv moved
  obtain ⟨tail,found,moved⟩ := Option.bind_eq_some_iff.mp moved
  split at moved <;> try contradiction
  rename_i within
  cases Option.some.inj moved
  obtain ⟨again,seen,least⟩ := inv.enough
  cases Option.some.inj (seen.symm.trans found)
  simp only [needed,idle] at least
  have published := inv.tails.below _ tail found
  have size := inv.threads.sizeSeen least published
  rw [← inv.tails.value _ tail found] at size
  obtain ⟨c,knows,room⟩ := inv.room
  refine ⟨?_,?_,inv.tails,⟨c,knows.stored _,room⟩,⟨tail,found,?_⟩,?_,?_⟩
  · refine Threads.releaseKeeps inv.threads (by omega) (inv.threads.headStep n) ?_
    simp [Threads.ConsumerAt,Threads.release,count]
  · have head : (s.now.ring.head+n) % slots s.now = (s.now.consumed+n) % slots s.now :=
      inv.threads.headStep n
    simp only [Threads.release,head]
    exact inv.heads.store (Nat.le_add_right _ _)
  · simp only [Threads.release,needed]
    omega
  · simp [Threads.release]
  · intro call some
    simp [free] at some

theorem stepKeeps {a} (inv : Inv capacity s) (moved : step s a = some t) : Inv capacity t := by
  cases a with
  | push value => exact pushKeeps inv moved
  | loadHead i => exact loadHeadKeeps inv moved
  | produce => exact produceKeeps inv moved
  | pop outVal => exact popKeeps inv moved
  | popView n j => exact popViewKeeps inv moved
  | loadTail j => exact loadTailKeeps inv moved
  | consume => exact consumeKeeps inv moved
  | leave => exact leaveKeeps inv moved
  | advanceHead n => exact advanceHeadKeeps inv moved
  | sampleIndices batchSize =>
    simp only [step] at moved
    obtain ⟨idle,_,moved,_⟩ := beginKeeps inv moved
    cases Option.some.inj moved
    exact { inv with sampler := by rintro _ ⟨⟩; exact ⟨idle,rfl⟩ }
  | sampleTail std gen j =>
    simp only [step] at moved
    obtain ⟨call,pending,moved⟩ := Option.bind_eq_some_iff.mp moved
    obtain ⟨tail,loaded,moved⟩ := Option.bind_eq_some_iff.mp moved
    cases Option.some.inj moved
    obtain ⟨idle,_⟩ := inv.sampler call pending
    obtain ⟨found,least⟩ := inv.enough.load inv.tails loaded
    exact { inv with
      enough := ⟨tail,found,least⟩
      size := fun n x at' => by simp [idle] at at'
      sampler := fun call some => by simp at some }

theorem runInv {acts} (run : exec step (init capacity) acts = some s) : Inv capacity s :=
  preserved (fun _ _ _ => stepKeeps) run (initInv capacity)

theorem stepPublishes {a} {p : Nat} {v : CInt} (inv : Inv capacity s) (moved : step s a = some t)
    (found : s.now.pushed[p]? = some v) : t.now.pushed[p]? = some v := by
  cases a with
  | push value =>
    obtain ⟨now,begun,moved⟩ := Option.bind_eq_some_iff.mp moved
    cases Option.some.inj moved
    obtain ⟨_,rfl⟩ := Threads.beginPushIs begun
    exact found
  | loadHead i =>
    simp only [step,loadHead] at moved
    split at moved <;> try contradiction
    obtain ⟨head,_,moved⟩ := Option.bind_eq_some_iff.mp moved
    cases Option.some.inj moved
    exact found
  | produce =>
    simp only [step,produce] at moved
    split at moved <;> try contradiction
    all_goals
      obtain ⟨now,ran,moved⟩ := Option.bind_eq_some_iff.mp moved
      cases Option.some.inj moved
      exact Threads.producePublishes ran found
  | pop outVal =>
    simp only [step] at moved
    obtain ⟨_,_,moved,_⟩ := beginKeeps inv moved
    cases Option.some.inj moved
    exact found
  | popView n j =>
    simp only [step] at moved
    obtain ⟨_,_,moved,_⟩ := beginKeeps inv moved
    obtain ⟨tail,_,moved⟩ := Option.bind_eq_some_iff.mp moved
    cases Option.some.inj moved
    exact found
  | loadTail j =>
    simp only [step,loadTail] at moved
    split at moved <;> try contradiction
    obtain ⟨tail,_,moved⟩ := Option.bind_eq_some_iff.mp moved
    cases Option.some.inj moved
    exact found
  | consume =>
    simp only [step,consume] at moved
    split at moved <;> try contradiction
    obtain ⟨now,ran,moved⟩ := Option.bind_eq_some_iff.mp moved
    cases Option.some.inj moved
    dsimp only
    rwa [(Threads.consumeDrains ran).pushed]
  | leave =>
    simp only [step,leave] at moved
    split at moved <;> try contradiction
    cases Option.some.inj moved
    exact found
  | advanceHead n =>
    simp only [step] at moved
    obtain ⟨_,_,moved,_⟩ := beginKeeps inv moved
    obtain ⟨tail,_,moved⟩ := Option.bind_eq_some_iff.mp moved
    split at moved <;> try contradiction
    cases Option.some.inj moved
    exact found
  | sampleIndices batchSize =>
    simp only [step] at moved
    obtain ⟨_,_,moved,_⟩ := beginKeeps inv moved
    cases Option.some.inj moved
    exact found
  | sampleTail std gen j =>
    simp only [step] at moved
    obtain ⟨call,_,moved⟩ := Option.bind_eq_some_iff.mp moved
    obtain ⟨tail,_,moved⟩ := Option.bind_eq_some_iff.mp moved
    cases Option.some.inj moved
    exact found

theorem Inv.stays {p : Nat} {v : CInt} (inv : Inv capacity s) (found : s.now.pushed[p]? = some v)
    (acts : List Action) {u : State} (run : exec step s acts = some u)
    (unreleased : u.now.consumed ≤ p) : u.now.ring.buf[p % (capacity+1)]? = some v := by
  have both : Inv capacity u ∧ u.now.pushed[p]? = some v :=
    preserved (I := fun u => Inv capacity u ∧ u.now.pushed[p]? = some v)
      (fun _ _ _ h moved => ⟨stepKeeps h.1 moved,stepPublishes h.1 moved h.2⟩) run ⟨inv,found⟩
  have live := both.1.threads.live p unreleased (AppendLog.below both.2)
  rw [both.2,slots,both.1.threads.made] at live
  exact live

theorem drawnPublished {std gen} {indices : List Nat} {tail : Store} (inv : Inv capacity s)
    (known : s.now.consumed ≤ tail.count) (value : tail.value = tail.count % slots s.now)
    (published : tail.count ≤ s.now.pushed.length) {batchSize : Nat}
    (sampled : ExactRing.sampleIndices { s.now.ring with tail := tail.value } std gen batchSize
      = .ok indices) {index : Nat} (drawn : index ∈ indices) :
    ∃ p, index = p % (capacity+1) ∧ s.now.consumed ≤ p ∧ p < tail.count := by
  have size : ExactRing.size { s.now.ring with tail := tail.value } = tail.count-s.now.consumed := by
    rw [ExactRing.size,value]
    exact inv.threads.sizeSeen known published
  unfold ExactRing.sampleIndices at sampled
  split at sampled <;> try contradiction
  split at sampled <;> try contradiction
  rename_i some _
  cases Except.ok.inj sampled
  obtain ⟨k,_,rfl⟩ := List.mem_map.mp drawn
  have inRange := gen.inRange (ExactRing.size { s.now.ring with tail := tail.value } - 1) k
  refine ⟨s.now.consumed + gen.draw (ExactRing.size { s.now.ring with tail := tail.value } - 1) k,
    ?_,Nat.le_add_right _ _,by omega⟩
  have modulus : slots s.now = capacity+1 := congrArg (· + 1) inv.threads.made
  exact (inv.threads.headStep _).trans (by rw [modulus])

theorem sampledStaysValid (capacity : Nat) (acts : List Action) (s : State)
    (run : exec step (init capacity) acts = some s) (std : StdVector) (gen : Generator) (j : Nat)
    (t : State) (returned : step s (.sampleTail std gen j) = some t) (indices : List Nat)
    (sampled : t.samples = s.samples ++ [.ok indices]) :
    ∀ index ∈ indices, ∃ (p : Nat) (v : CInt), index = p % (capacity+1) ∧
      t.now.consumed ≤ p ∧ t.now.pushed[p]? = some v ∧ t.now.ring.buf[index]? = some v ∧
      ∀ later u, exec step t later = some u → u.now.consumed ≤ p →
        u.now.ring.buf[index]? = some v := by
  have inv := runInv run
  have after := stepKeeps inv returned
  simp only [step] at returned
  obtain ⟨call,pending,returned⟩ := Option.bind_eq_some_iff.mp returned
  obtain ⟨tail,loaded,returned⟩ := Option.bind_eq_some_iff.mp returned
  cases Option.some.inj returned
  obtain ⟨idle,head⟩ := inv.sampler call pending
  obtain ⟨found,least⟩ := inv.enough.load inv.tails loaded
  simp only [needed,idle] at least
  have published := inv.tails.below j tail found
  have drew := List.singleton_inj.mp (List.append_cancel_left sampled)
  rw [head] at drew
  intro index drawn
  obtain ⟨p,rfl,unreleased,below⟩ := drawnPublished inv least (inv.tails.value j tail found) published
    drew drawn
  obtain ⟨v,entry⟩ : ∃ v, s.now.pushed[p]? = some v :=
    ⟨_,List.getElem?_eq_getElem (Nat.lt_of_lt_of_le below published)⟩
  exact ⟨p,v,rfl,unreleased,entry,after.stays entry [] rfl unreleased,
    fun later u ran kept => after.stays entry later ran kept⟩

theorem sampledStaysValidAtOne :
    ∃ s t u : State, exec step (init 1)
        [.push 5,.loadHead 0,.produce,.produce,.sampleIndices 1] = some s ∧
      step s (.sampleTail StdVector.small (.always 0) 1) = some t ∧
      exec step t [.push 6,.loadHead 0] = some u ∧ u.now.ring.buf[0]? = some 5 := by
  obtain ⟨p,v,_,_,entry,held,stays⟩ := sampledStaysValid 1
    [.push 5,.loadHead 0,.produce,.produce,.sampleIndices 1] _ rfl StdVector.small (.always 0) 1 _ rfl
    [0] rfl 0 (by decide)
  have value : v = 5 := (Option.some.inj held).symm
  subst value
  exact ⟨_,_,_,rfl,rfl,rfl,stays [.push 6,.loadHead 0] _ rfl (Nat.zero_le p)⟩

end FastReplay.Sampling
