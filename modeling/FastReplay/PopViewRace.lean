import FastReplay.Interleaving

/-! pop_view beside a running producer. The copied array is the caller's own; the
zero-copy view is released before the caller reads it, and only the spare slot
stays out of the producer's reach after that. -/
namespace FastReplay.Threads
open GuardedRun

/- At most one entry, or too few stored (it throws), or the wrapped branch. -/
def Harmless (r : ExactRing) (n : Nat) : Prop :=
  n ≤ 1 ∨ r.size < n ∨ r.capacity+1 < r.head+n

def InOrder (base : Nat) (s : State) : Prop :=
  ∀ k, base ≤ k → ∀ v, s.received[k]? = some (some v) → s.pushed[k]? = some v

/- The consumer still has to read this slot through the array of pop_view. -/
def Awaits (slot : Nat) (s : State) : Prop := match s.consumer with
  | .contiguous n currentHead => currentHead ≤ slot ∧ slot < currentHead+n
  | .copying n currentHead dest =>
      ∃ j, dest.length ≤ j ∧ j < n ∧ slot = (currentHead+j) % slots s
  | .built n (.view start _) => start ≤ slot ∧ slot < start+n
  | .advancing n _ (.view start _) => start ≤ slot ∧ slot < start+n
  | .reading n (.view start _) i => start+i ≤ slot ∧ slot < start+n
  | _ => False

def Untouched (s : State) : Prop :=
  ∀ value slot next, s.producer = .notFull value slot next → ¬ Awaits slot s

def Action.call : Action → Bool
  | .pop _ | .popView _ => true
  | .push _ | .produce | .consume => false

def ReadsInOrder (s : State) (n : Nat) : Prop :=
  ∀ acts t, (∀ a ∈ acts, Action.call a = false) → exec step s (.popView n::acts) = some t →
    InOrder s.consumed t ∧ Untouched t

def HarmlessCall (s : State) : Action → Prop
  | .popView n => Harmless s.ring n
  | _ => True

def ViewSafe (s : State) : Prop := match s.consumer with
  | .sizeTail n t => n ≤ 1 ∨ ExactRing.sizeFrom s.ring.capacity t s.ring.head < n ∨
      slots s < s.ring.head+n
  | .sized n => n ≤ 1 ∨ slots s < s.ring.head+n
  | .located n currentHead => n ≤ 1 ∨ slots s < currentHead+n
  | .contiguous n _ => n ≤ 1
  | .built n (.view _ _) => n ≤ 1
  | .advancing n _ (.view _ _) => n ≤ 1
  | .reading n (.view start _) _ => n ≤ 1 ∧ s.ring.buf[start]? = s.pushed[s.consumed-n]?
  | _ => True

structure Safe (capacity base : Nat) (s : State) : Prop where
  inv : Inv capacity s
  view : ViewSafe s
  order : InOrder base s

variable {capacity base : Nat} {s t : State}

theorem beginPushViewSafe {value} (view : ViewSafe s) (moved : beginPush s value = some t) :
    ViewSafe t := by
  obtain ⟨_,rfl⟩ := beginPushIs moved
  exact view

theorem produceViewSafe (inv : Inv capacity s) (view : ViewSafe s) (moved : produce s = some t) :
    ViewSafe t := by
  have producer := inv.producer
  have consumer := inv.consumer
  unfold produce at moved
  split at moved <;> try contradiction
  · cases Option.some.inj moved
    exact view
  · rename_i value curTail nextTail pc
    cases Option.some.inj moved
    simp only [ProducerAt,pc] at producer
    obtain ⟨slot,_,room⟩ := producer
    unfold ViewSafe at view ⊢
    dsimp only
    split at view <;> try exact view
    rename_i n start count i at'
    simp only [ConsumerAt,at'] at consumer
    obtain ⟨received,unread,released,here,_⟩ := consumer
    refine ⟨view.1,(List.getElem?_set_ne ?_).trans view.2⟩
    -- the slot just released is a full lap behind the next one to be written
    have published := inv.order
    have one : n = 1 := by omega
    subst one
    rw [slot,here]
    exact writeMisses room (by omega) (by omega)
  · rename_i value curTail nextTail pc
    cases Option.some.inj moved
    unfold ViewSafe at view ⊢
    dsimp only
    split at view <;> try exact view
    rename_i n start count i at'
    simp only [ConsumerAt,at'] at consumer
    have published := inv.order
    refine ⟨view.1,?_⟩
    rw [List.getElem?_append_left (by omega)]
    exact view.2

theorem produceInOrder (order : InOrder base s) (moved : produce s = some t) : InOrder base t := by
  unfold produce at moved
  split at moved <;> try contradiction
  · cases Option.some.inj moved
    exact order
  · cases Option.some.inj moved
    exact order
  · cases Option.some.inj moved
    exact fun k above v found => AppendLog.kept (order k above v found)

theorem receiveInOrder {received : List (Option CInt)} {out : Option CInt}
    (order : ∀ k, base ≤ k → ∀ v, received[k]? = some (some v) → s.pushed[k]? = some v)
    (next : ∀ v, out = some v → s.pushed[received.length]? = some v) (k : Nat) (above : base ≤ k)
    (v : CInt) (found : (received ++ [out])[k]? = some (some v)) : s.pushed[k]? = some v := by
  rcases AppendLog.entry found with old | ⟨rfl,same⟩
  · exact order k above v old
  · exact next v same.symm

theorem sizeTailViewSafe {n seen} (view : ViewSafe s) (pc : s.consumer = .sizeTail n seen)
    (moved : consume s = some t) : ViewSafe t := by
  simp only [consume,pc] at moved
  cases Option.some.inj moved
  simp only [ViewSafe,pc] at view
  unfold ViewSafe
  by_cases short : ExactRing.sizeFrom s.ring.capacity seen s.ring.head < n
  · simp [short]
  · simp only [if_neg short]
    rcases view with one | less | wraps
    · exact .inl one
    · exact absurd less short
    · exact .inr wraps

theorem locatedViewSafe {n currentHead} (view : ViewSafe s) (pc : s.consumer = .located n currentHead)
    (moved : consume s = some t) : ViewSafe t := by
  simp only [consume,pc] at moved
  cases Option.some.inj moved
  simp only [ViewSafe,pc] at view
  unfold ViewSafe
  by_cases fits : currentHead+n ≤ slots s
  · simp only [if_pos fits]
    rcases view with one | wraps
    · exact one
    · omega
  · simp [fits]

theorem advancingViewSafe {n cur array} (inv : Inv capacity s) (view : ViewSafe s)
    (pc : s.consumer = .advancing n cur array) (moved : consume s = some t) : ViewSafe t := by
  have consumer := inv.consumer
  simp only [consume,pc] at moved
  cases Option.some.inj moved
  simp only [ConsumerAt,pc] at consumer
  obtain ⟨_,_,enough,made⟩ := consumer
  unfold ViewSafe release
  by_cases nothing : n = 0
  · simp [nothing]
  · simp only [if_neg nothing]
    cases array with
    | copied values => trivial
    | view start count =>
      simp only [ViewSafe,pc] at view
      refine ⟨view,?_⟩
      rw [Nat.add_sub_cancel,made.1]
      exact inv.live s.consumed (Nat.le_refl _) (by omega)

theorem readingViewSafe {n array i} (view : ViewSafe s) (pc : s.consumer = .reading n array i)
    (moved : consume s = some t) : ViewSafe t := by
  simp only [consume,pc] at moved
  obtain ⟨value,read,moved⟩ := Option.bind_eq_some_iff.mp moved
  cases Option.some.inj moved
  unfold ViewSafe
  by_cases last : i+1 = n
  · simp [last]
  · simp only [if_neg last]
    cases array with
    | copied values => trivial
    | view start count => simpa only [ViewSafe,pc] using view

theorem consumeViewSafe (inv : Inv capacity s) (view : ViewSafe s) (moved : consume s = some t) :
    ViewSafe t := by
  cases pc : s.consumer with
  | idle => simp [consume,pc] at moved
  | loadedHead outVal curHead =>
    simp only [consume,pc] at moved
    cases Option.some.inj moved
    unfold ViewSafe
    by_cases empty : curHead = s.ring.tail <;> simp [empty]
  | notEmpty outVal curHead =>
    cases outVal with
    | none =>
      simp only [consume,pc] at moved
      cases Option.some.inj moved
      trivial
    | some old =>
      simp only [consume,pc] at moved
      obtain ⟨value,read,moved⟩ := Option.bind_eq_some_iff.mp moved
      cases Option.some.inj moved
      trivial
  | taken curHead out =>
    simp only [consume,pc] at moved
    cases Option.some.inj moved
    trivial
  | sizeTail n seen => exact sizeTailViewSafe view pc moved
  | sized n =>
    simp only [consume,pc] at moved
    cases Option.some.inj moved
    simp only [ViewSafe,pc] at view
    exact view
  | located n currentHead => exact locatedViewSafe view pc moved
  | contiguous n currentHead =>
    simp only [consume,pc] at moved
    cases Option.some.inj moved
    simpa only [ViewSafe,pc] using view
  | copying n currentHead dest =>
    simp only [consume,pc] at moved
    obtain ⟨value,read,moved⟩ := Option.bind_eq_some_iff.mp moved
    cases Option.some.inj moved
    unfold ViewSafe
    by_cases full : dest.length+1 = n <;> simp [full]
  | built n array =>
    simp only [consume,pc] at moved
    cases Option.some.inj moved
    simp only [ViewSafe,pc] at view
    cases array <;> exact view
  | advancing n cur array => exact advancingViewSafe inv view pc moved
  | reading n array i => exact readingViewSafe view pc moved

theorem entryInOrder {n array i value} (inv : Inv capacity s) (view : ViewSafe s)
    (pc : s.consumer = .reading n array i) (read : entry s.ring i array = some value) :
    s.pushed[s.received.length]? = some value := by
  have consumer := inv.consumer
  simp only [ConsumerAt,pc] at consumer
  obtain ⟨count,unread,released,made⟩ := consumer
  have here : s.received.length = s.consumed-n+i := by omega
  rw [here]
  cases array with
  | copied values => exact made.2 i value read
  | view start count' =>
    simp only [ViewSafe,pc] at view
    have first : i = 0 := by omega
    subst first
    rw [Nat.add_zero,← view.2]
    exact read

theorem consumeInOrder (inv : Inv capacity s) (view : ViewSafe s) (order : InOrder base s)
    (moved : consume s = some t) : InOrder base t := by
  have consumer := inv.consumer
  cases pc : s.consumer with
  | idle => simp [consume,pc] at moved
  | notEmpty outVal curHead =>
    cases outVal with
    | none =>
      simp only [consume,pc] at moved
      cases Option.some.inj moved
      exact receiveInOrder order (by simp)
    | some old =>
      simp only [consume,pc] at moved
      obtain ⟨value,read,moved⟩ := Option.bind_eq_some_iff.mp moved
      cases Option.some.inj moved
      exact order
  | taken curHead out =>
    simp only [ConsumerAt,pc] at consumer
    simp only [consume,pc] at moved
    cases Option.some.inj moved
    refine receiveInOrder order ?_
    rw [consumer.1]
    exact consumer.2.2.2
  | reading n array i =>
    simp only [consume,pc] at moved
    obtain ⟨value,read,moved⟩ := Option.bind_eq_some_iff.mp moved
    cases Option.some.inj moved
    refine receiveInOrder order ?_
    rintro v ⟨⟩
    exact entryInOrder inv view pc read
  | copying n currentHead dest =>
    simp only [consume,pc] at moved
    obtain ⟨value,read,moved⟩ := Option.bind_eq_some_iff.mp moved
    cases Option.some.inj moved
    exact order
  | _ =>
    simp only [consume,pc] at moved
    cases Option.some.inj moved
    exact order

theorem stepSafe {a} (safe : Safe capacity base s) (call : HarmlessCall s a)
    (moved : step s a = some t) : Safe capacity base t := by
  have inv := stepKeeps safe.inv moved
  cases a with
  | push value =>
    refine ⟨inv,beginPushViewSafe safe.view moved,?_⟩
    obtain ⟨_,rfl⟩ := beginPushIs moved
    exact safe.order
  | produce => exact ⟨inv,produceViewSafe safe.inv safe.view moved,produceInOrder safe.order moved⟩
  | pop outVal =>
    obtain ⟨_,rfl⟩ := beginCallIs moved
    exact ⟨inv,trivial,safe.order⟩
  | popView n =>
    obtain ⟨_,rfl⟩ := beginCallIs moved
    exact ⟨inv,call,safe.order⟩
  | consume =>
    exact ⟨inv,consumeViewSafe safe.inv safe.view moved,
      consumeInOrder safe.inv safe.view safe.order moved⟩

theorem Safe.awaited {slot} (safe : Safe capacity base s) (awaits : Awaits slot s) :
    ∃ k, slot = k % slots s ∧ s.consumed ≤ k+1 ∧ k < s.pushed.length := by
  have consumer := safe.inv.consumer
  have view := safe.view
  have order := safe.inv.order
  have inside : ∀ n, s.consumed+n ≤ s.pushed.length → s.consumed % slots s + n ≤ slots s →
      s.consumed % slots s ≤ slot → slot < s.consumed % slots s + n →
      ∃ k, slot = k % slots s ∧ s.consumed ≤ k+1 ∧ k < s.pushed.length := by
    intro n enough fits least most
    refine ⟨s.consumed+(slot-s.consumed % slots s),?_,by omega,by omega⟩
    rw [← Nat.mod_add_mod,Nat.mod_eq_of_lt (by omega)]
    omega
  unfold Awaits at awaits
  split at awaits
  · rename_i n currentHead pc
    simp only [ConsumerAt,pc] at consumer
    obtain ⟨_,here,enough,fits⟩ := consumer
    rw [here,safe.inv.head] at awaits fits
    exact inside n enough fits awaits.1 awaits.2
  · rename_i n currentHead dest pc
    simp only [ConsumerAt,pc] at consumer
    obtain ⟨_,here,enough,_⟩ := consumer
    obtain ⟨j,_,unread,rfl⟩ := awaits
    exact ⟨s.consumed+j,by rw [here,safe.inv.headStep],by omega,by omega⟩
  · rename_i n start count pc
    simp only [ConsumerAt,pc] at consumer
    obtain ⟨_,enough,here,_,fits⟩ := consumer
    rw [here] at awaits fits
    exact inside n enough fits awaits.1 awaits.2
  · rename_i n cur start count pc
    simp only [ConsumerAt,pc] at consumer
    obtain ⟨_,_,enough,here,_,fits⟩ := consumer
    rw [here] at awaits fits
    exact inside n enough fits awaits.1 awaits.2
  · rename_i n start count i pc
    simp only [ConsumerAt,pc] at consumer
    simp only [ViewSafe,pc] at view
    obtain ⟨_,unread,released,here,_,_⟩ := consumer
    exact ⟨s.consumed-n,by omega,by omega,by omega⟩
  · contradiction

theorem Safe.untouched (safe : Safe capacity base s) : Untouched s := by
  intro value slot next pc awaits
  have producer := safe.inv.producer
  simp only [ProducerAt,pc] at producer
  obtain ⟨k,same,least,published⟩ := safe.awaited awaits
  exact writeMisses producer.2.2 least published (producer.1.symm.trans same)

theorem runSafe {acts} (safe : Safe capacity base s) (calls : Meets step HarmlessCall s acts)
    (run : exec step s acts = some t) : Safe capacity base t :=
  preservedMeeting (fun _ _ _ => stepSafe) calls run safe

theorem harmlessReads {n} (inv : Inv capacity s) (harmless : Harmless s.ring n) : ReadsInOrder s n := by
  intro acts t noCall run
  obtain ⟨next,begun,later⟩ := execCons.mp run
  have consumer := inv.consumer
  obtain ⟨idle,rfl⟩ := beginCallIs begun
  simp only [ConsumerAt,idle] at consumer
  -- nothing has been received yet from position consumed on
  have fresh : InOrder s.consumed { s with consumer := .sizeTail n s.ring.tail } := by
    intro k above v found
    have := AppendLog.below found
    dsimp only at this
    omega
  have calls : Meets step HarmlessCall { s with consumer := .sizeTail n s.ring.tail } acts := by
    refine meetsAlways (fun a mem _ => ?_) _
    have := noCall a mem
    cases a <;> trivial
  have safe := runSafe ⟨stepKeeps inv begun,harmless,fresh⟩ calls later
  exact ⟨safe.order,safe.untouched⟩

/-! The other direction: with two entries in the view, the producer goes once round
and overwrites the first of them before the caller reads it. -/

def Pushes (s t : State) : Prop :=
  ∃ acts, (∀ a ∈ acts, Action.call a = false) ∧ exec step s acts = some t ∧ Onward s t

theorem Pushes.trans {u : State} (first : Pushes s t) (second : Pushes t u) : Pushes s u := by
  obtain ⟨xs,noCallX,runX,onwardX⟩ := first
  obtain ⟨ys,noCallY,runY,onwardY⟩ := second
  refine ⟨xs++ys,?_,execAppend.mpr ⟨t,runX,runY⟩,onwardX.trans onwardY⟩
  intro a mem
  rcases List.mem_append.mp mem with left | right
  · exact noCallX a left
  · exact noCallY a right

theorem Pushes.inv (pushes : Pushes s t) (inv : Inv capacity s) : Inv capacity t := by
  obtain ⟨acts,_,run,_⟩ := pushes
  exact preserved (fun _ _ _ => stepKeeps) run inv

theorem oneProduce (moved : produce s = some t) : Pushes s t :=
  ⟨[.produce],by simp [Action.call],by simp [exec,step,moved],produceOnward moved⟩

def Finishes (s : State) : Prop :=
  ∃ t, Pushes s t ∧ t.producer = .idle ∧ s.pushed.length ≤ t.pushed.length

theorem finishWritten {value slot next} (pc : s.producer = .written value slot next) : Finishes s :=
  ⟨_,oneProduce (by rw [produce,pc]),rfl,by simp⟩

theorem finishNotFull {value slot next} (pc : s.producer = .notFull value slot next) : Finishes s := by
  obtain ⟨t,later,idle,grows⟩ := finishWritten (s := { s with
    ring := { s.ring with buf := s.ring.buf.set slot value }
    producer := .written value slot next }) rfl
  exact ⟨t,(oneProduce (by rw [produce,pc])).trans later,idle,grows⟩

theorem finishPush (s : State) : Finishes s := by
  cases pc : s.producer with
  | idle => exact ⟨s,⟨[],by simp,rfl,⟨rfl,rfl⟩,rfl,rfl,rfl⟩,pc,Nat.le_refl _⟩
  | loadedTail value slot next =>
    by_cases full : next = s.ring.head
    · exact ⟨{ s with producer := .idle },oneProduce (by simp only [produce,pc,if_pos full]),rfl,
        Nat.le_refl _⟩
    · obtain ⟨t,later,idle,grows⟩ := finishNotFull
        (s := { s with producer := .notFull value slot next }) rfl
      exact ⟨t,(oneProduce (by simp only [produce,pc,if_neg full])).trans later,idle,grows⟩
  | notFull value slot next => exact finishNotFull pc
  | written value slot next => exact finishWritten pc

theorem wholePush (inv : Inv capacity s) (idle : s.producer = .idle)
    (room : s.pushed.length < s.consumed+capacity) (value : CInt) :
    ∃ t, Pushes s t ∧ t.producer = .idle ∧ t.pushed = s.pushed ++ [value] ∧
      t.ring.buf[s.pushed.length % slots s]? = some value := by
  have free : (s.ring.tail+1) % slots s ≠ s.ring.head := by
    intro full
    rw [inv.nextTail,inv.head] at full
    have made := inv.made
    have order := inv.order
    have := CyclicIndex.sameSlot full (by unfold slots; omega) (by omega)
    omega
  have inside : s.pushed.length % slots s < s.ring.buf.length := by
    rw [inv.length]
    exact Nat.mod_lt _ (slotsPositive s)
  refine ⟨{ s with
    ring := { s.ring with
      buf := s.ring.buf.set s.ring.tail value
      tail := (s.ring.tail+1) % slots s }
    pushed := s.pushed ++ [value]
    producer := .idle },⟨[.push value,.produce,.produce,.produce],?_,?_,?_⟩,rfl,rfl,?_⟩
  · simp [Action.call]
  · simp [exec,step,beginPush,idle,produce,free]
  · exact ⟨⟨rfl,rfl⟩,rfl,rfl,rfl⟩
  · simp only [inv.tail]
    exact List.getElem?_set_self inside

theorem manyPushes (inv : Inv capacity s) (idle : s.producer = .idle) (k : Nat)
    (room : s.pushed.length+k ≤ s.consumed+capacity) :
    ∃ t, Pushes s t ∧ t.producer = .idle ∧ t.pushed.length = s.pushed.length+k := by
  induction k with
  | zero => exact ⟨s,⟨[],by simp,rfl,⟨rfl,rfl⟩,rfl,rfl,rfl⟩,idle,rfl⟩
  | succ k ih =>
    obtain ⟨mid,before,rest,length⟩ := ih (by omega)
    have still := before
    obtain ⟨_,_,_,onward⟩ := still
    obtain ⟨t,last,rest',pushed,_⟩ := wholePush (before.inv inv) rest
      (by rw [onward.consumed]; omega) 0
    exact ⟨t,before.trans last,rest',by rw [pushed]; simp; omega⟩

theorem viewTaken {n seen} (pc : s.consumer = .sizeTail n seen)
    (enough : ¬ ExactRing.sizeFrom s.ring.capacity seen s.ring.head < n)
    (fits : s.ring.head+n ≤ slots s) (nonzero : n ≠ 0) :
    exec step s (List.replicate 6 .consume) = some (release s ((s.ring.head+n) % slots s) n
      s.received (.reading n (.view s.ring.head n) 0)) := by
  have sized : step s .consume = some { s with consumer := .sized n } := by
    simp only [step,consume,pc,if_neg enough]
  have branch : step { s with consumer := .located n s.ring.head } .consume
      = some { s with consumer := .contiguous n s.ring.head } := by
    have fits' : s.ring.head+n ≤ s.ring.capacity+1 := fits
    simp only [step,consume,slots,fits',if_true]
  have released : step { s with consumer := .advancing n s.ring.head (.view s.ring.head n) } .consume
      = some (release s ((s.ring.head+n) % slots s) n s.received
        (.reading n (.view s.ring.head n) 0)) := by
    simp only [step,consume,if_neg nonzero]
    rfl
  refine execCons.mpr ⟨_,sized,execCons.mpr ⟨_,rfl,execCons.mpr ⟨_,branch,?_⟩⟩⟩
  exact execCons.mpr ⟨_,rfl,execCons.mpr ⟨_,rfl,execCons.mpr ⟨_,released,rfl⟩⟩⟩

theorem readerLapped {n h} (inv : Inv capacity s) (pc : s.consumer = .reading n (.view h n) 0)
    (two : 2 ≤ n) (behind : s.pushed.length+n ≤ s.consumed+capacity) (idle : s.producer = .idle) :
    ∃ acts t, (∀ a ∈ acts, Action.call a = false) ∧ exec step s acts = some t ∧
      ¬ InOrder (s.consumed-n) t := by
  have consumer := inv.consumer
  simp only [ConsumerAt,pc] at consumer
  obtain ⟨count,_,released,here,_,_⟩ := consumer
  have size : slots s = capacity+1 := congrArg (· + 1) inv.made
  obtain ⟨u,pushes,idleU,length⟩ := manyPushes inv idle (s.consumed-n+capacity+1-s.pushed.length)
    (by omega)
  have invU := pushes.inv inv
  obtain ⟨xs,noCallX,runX,onwardX⟩ := pushes
  obtain ⟨old,first⟩ : ∃ old, u.pushed[s.consumed-n]? = some old :=
    ⟨_,List.getElem?_eq_getElem (by omega)⟩
  -- the value pushed over the first entry differs from it
  obtain ⟨w,last,_,pushed,stored⟩ := wholePush invU idleU (by rw [onwardX.consumed]; omega)
    (old+1)
  obtain ⟨ys,noCallY,runY,onwardY⟩ := last
  have slot : u.pushed.length % slots u = h := by
    have lap : u.pushed.length = s.consumed-n+slots s := by omega
    have same : slots u = slots s := congrArg (· + 1) onwardX.ring.1
    rw [same,lap,Nat.add_mod_right,← here]
  rw [slot] at stored
  have reading : w.consumer = .reading n (.view h n) 0 := by
    rw [onwardY.consumer,onwardX.consumer,pc]
  have read : step w .consume = some { w with
      received := w.received ++ [some (old+1)]
      consumer := .reading n (.view h n) 1 } := by
    have more : 1 ≠ n := by omega
    simp [step,consume,reading,entry,stored,more]
  refine ⟨xs++ys++[.consume],_,?_,execSnoc.mpr ⟨w,execAppend.mpr ⟨u,runX,runY⟩,read⟩,?_⟩
  · intro a mem
    simp only [List.mem_append,List.mem_singleton] at mem
    rcases mem with (left | right) | rfl
    · exact noCallX a left
    · exact noCallY a right
    · rfl
  · intro inOrder
    have at' : w.received.length = s.consumed-n := by
      rw [onwardY.received,onwardX.received]
      omega
    have found := inOrder (s.consumed-n) (Nat.le_refl _) (old+1)
      (by rw [← at']; exact AppendLog.latest)
    dsimp only at found
    rw [pushed,AppendLog.kept first] at found
    have same : old = old+1 := Option.some.inj found
    simp at same

theorem harmfulMisreads {n} (inv : Inv capacity s) (idle : s.consumer = .idle)
    (harmful : ¬ Harmless s.ring n) : ¬ ReadsInOrder s n := by
  intro reads
  unfold Harmless at harmful
  have two : 2 ≤ n := by omega
  have enough : n ≤ s.ring.size := by omega
  have fits : s.ring.head+n ≤ slots s := by unfold slots; omega
  have sized : ExactRing.sizeFrom s.ring.capacity s.ring.tail s.ring.head
      = s.pushed.length-s.consumed := by
    rw [inv.tail]
    exact inv.sizeSeen inv.order (Nat.le_refl _)
  have begun : step s (.popView n) = some { s with consumer := .sizeTail n s.ring.tail } := by
    simp [step,beginCall,idle]
  obtain ⟨u,⟨xs,noCallX,runX,onwardX⟩,idleU,grows⟩ :=
    finishPush { s with consumer := .sizeTail n s.ring.tail }
  have invU := preserved (fun _ _ _ => stepKeeps) runX (stepKeeps inv begun)
  have roomU := invU.room
  have asked : u.consumer = .sizeTail n s.ring.tail := onwardX.consumer
  have taken := viewTaken asked
    (by rw [onwardX.ring.1,onwardX.ring.2]; exact Nat.not_lt.mpr enough)
    (by unfold slots; rw [onwardX.ring.1,onwardX.ring.2]; exact fits) (by omega)
  have invV := preserved (fun _ _ _ => stepKeeps) taken invU
  obtain ⟨ys,t,noCallY,runY,wrong⟩ := readerLapped invV rfl two
    (by have := invU.made; have := onwardX.consumed; simp only [release]; omega) idleU
  apply wrong
  have base : (release u ((u.ring.head+n) % slots u) n u.received
      (.reading n (.view u.ring.head n) 0)).consumed - n = s.consumed := by
    simp only [release,Nat.add_sub_cancel]
    exact onwardX.consumed
  rw [base]
  refine (reads (xs ++ List.replicate 6 .consume ++ ys) t ?_ ?_).1
  · intro a mem
    simp only [List.mem_append] at mem
    rcases mem with (left | middle) | right
    · exact noCallX a left
    · rw [List.eq_of_mem_replicate middle]
      rfl
    · exact noCallY a right
  · exact execCons.mpr ⟨_,begun,execAppend.mpr ⟨_,execAppend.mpr ⟨u,runX,taken⟩,runY⟩⟩

theorem popViewReadsInOrder (capacity : Nat) :
    (∀ acts s, Meets step HarmlessCall (init capacity) acts →
      exec step (init capacity) acts = some s → InOrder 0 s ∧ Untouched s) ∧
    (∀ acts s n, exec step (init capacity) acts = some s → s.consumer = .idle →
      (ReadsInOrder s n ↔ Harmless s.ring n)) := by
  refine ⟨?_,?_⟩
  · intro acts s calls run
    have start : Safe capacity 0 (init capacity) := ⟨initInv capacity,trivial,by simp [InOrder,init]⟩
    have safe := runSafe start calls run
    exact ⟨safe.order,safe.untouched⟩
  · intro acts s n run idle
    have inv := runInv run
    refine ⟨?_,harmlessReads inv⟩
    intro reads
    by_contra harmful
    exact harmfulMisreads inv idle harmful reads

instance (r : ExactRing) (n : Nat) : Decidable (Harmless r n) :=
  inferInstanceAs (Decidable (_ ∨ _))

instance (s : State) (a : Action) : Decidable (HarmlessCall s a) := match a with
  | .popView n => inferInstanceAs (Decidable (Harmless s.ring n))
  | .push _ | .produce | .pop _ | .consume => isTrue trivial

def storeWrapped : List Action :=
  [.push 1,.produce,.produce,.produce,.push 2,.produce,.produce,.produce,
    .pop (some 0),.consume,.consume,.consume,.pop (some 0),.consume,.consume,.consume,
    .push 3,.produce,.produce,.produce,.push 4,.produce,.produce,.produce]

def viewWrapped : List Action :=
  [.popView 2,.push 5] ++ List.replicate 7 .consume ++ [.produce,.produce,.produce,.consume,.consume]

theorem popViewReadsInOrderAtTwo :
    InOrder 0 ⟨⟨2,[4,5,3],1,2⟩,.idle,.idle,[1,2,3,4,5],4,[some 1,some 2,some 3,some 4]⟩ ∧
      (ReadsInOrder ⟨⟨2,[4,2,3],2,1⟩,.idle,.idle,[1,2,3,4],2,[some 1,some 2]⟩ 2 ↔
        Harmless ⟨2,[4,2,3],2,1⟩ 2) :=
  ⟨((popViewReadsInOrder 2).1 (storeWrapped ++ viewWrapped) _ (by decide) (by decide)).1,
    (popViewReadsInOrder 2).2 storeWrapped _ 2 (by decide) rfl⟩

def lap : List Action :=
  [.push 1,.produce,.produce,.produce,.push 2,.produce,.produce,.produce,.popView 2] ++
    List.replicate 6 .consume ++ [.push 3,.produce,.produce,.produce,.push 4,.produce]

def aboutToWrite : State :=
  ⟨⟨2,[1,2,3],2,0⟩,.notFull 4 0 1,.reading 2 (.view 0 2) 0,[1,2,3],2,[]⟩

def misread : State :=
  ⟨⟨2,[4,2,3],2,0⟩,.written 4 0 1,.reading 2 (.view 0 2) 1,[1,2,3],2,[some 4]⟩

theorem popViewOverwritten :
    exec step (init 2) lap = some aboutToWrite ∧ ¬ Untouched aboutToWrite ∧
      exec step (init 2) (lap ++ [.produce,.consume]) = some misread ∧ ¬ InOrder 0 misread := by
  refine ⟨by decide,?_,by decide,?_⟩
  · intro untouched
    exact untouched 4 0 1 rfl ⟨by decide,by decide⟩
  · intro inOrder
    have found := inOrder 0 (Nat.le_refl _) 4 rfl
    revert found
    decide

end FastReplay.Threads
