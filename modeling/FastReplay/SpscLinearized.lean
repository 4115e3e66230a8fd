import FastReplay.SpscStanding

/-! What each access does to the queue, and so what every run of the calls of both
threads does: they take effect one at a time. -/
namespace FastReplay.Spsc
open GuardedRun CallHistory EffectOrder
open Threads (Thread slots)
open Monitoring (Query Reply)
variable {std : StdVector} {capacity : Nat} {effects more : List (Ticket × Answer)} {issued : Ticket}
  {s t : Threads.State}

structure Outcome (std : StdVector) (capacity : Nat) (s : Threads.State)
    (effects : List (Ticket × Answer)) (issued : Ticket) (thread : Thread) (t : Threads.State)
    (more : List (Ticket × Answer)) (after : Stage ⊕ Answer) : Prop where
  threads : Threads.Inv capacity t
  others : ∀ other, other ≠ thread → Unmoved s t other
  effect : more = effects ∧ queue t = queue s ∨ ∃ answer, Untaken effects issued ∧
    serve std capacity (queue s) issued = (answer,queue t) ∧ more = effects ++ [(issued,answer)]
  lands : match after with
    | .inl stage => At t more issued thread stage
    | .inr answer => (issued,answer) ∈ more ∧ Idle t thread

theorem produceUnmoved (moved : Threads.produce s = some t) : ∀ other, other ≠ .producer →
    Unmoved s t other := by
  rintro (_ | _) different
  · exact absurd rfl different
  have onward := Threads.produceOnward moved
  refine ⟨onward.consumer,onward.ring.1,onward.ring.2,onward.consumed,?_⟩
  unfold Threads.produce at moved
  split at moved <;> try contradiction
  all_goals
    cases Option.some.inj moved
    first | exact List.prefix_refl _ | exact List.prefix_append _ _

theorem consumeUnmoved (moved : move s .consumer = some t) : ∀ other, other ≠ .consumer →
    Unmoved s t other := by
  rintro (_ | _) different
  · obtain ⟨u,consumed,rfl⟩ := Option.map_eq_some_iff.mp moved
    have drains := Threads.consumeDrains consumed
    unfold leave
    split <;> exact ⟨drains.producer,drains.ring.1,drains.ring.2.1⟩
  · exact absurd rfl different

theorem produceOutcome (inv : Threads.Inv capacity s) (at' : At s effects issued .producer .moving)
    (moved : Threads.produce s = some t) : ∃ more, Outcome std capacity s effects issued .producer t
      more (match last s .producer with
        | some answer => .inr answer
        | none => .inl .moving) := by
  obtain ⟨push,untaken⟩ := at'
  have kept := Threads.produceKeeps inv moved
  have others := produceUnmoved moved
  have total := queueLength inv
  have producer := inv.producer
  cases pc : s.producer with
  | idle => simp [PushAt,pc] at push
  | loadedTail value curTail nextTail =>
    simp only [PushAt,pc] at push
    by_cases full : nextTail = s.ring.head
    · have answer : Threads.answer s .produce = some (.pushed false) := by simp [Threads.answer,pc,full]
      have most := (Threads.refusedFull inv answer).2
      simp only [Threads.produce,pc,full] at moved
      cases Option.some.inj moved
      refine ⟨effects ++ [(issued,.pushed false)],kept,others,.inr ⟨_,untaken,?_,rfl⟩,?_⟩
      · have refused : ¬ (queue s).length < capacity := by omega
        simp only [serve,push,BoundedQueue.offer,if_neg refused]
        rfl
      · simp [last,answer,ofRing,Idle]
    · have silent : Threads.answer s .produce = none := by simp [Threads.answer,pc,full]
      simp only [Threads.produce,pc,if_neg full] at moved
      cases Option.some.inj moved
      refine ⟨effects,kept,others,.inl ⟨rfl,rfl⟩,?_⟩
      simp only [last,silent,Option.map_none]
      exact ⟨push,untaken⟩
  | notFull value curTail nextTail =>
    simp only [PushAt,pc] at push
    have silent : Threads.answer s .produce = none := by simp [Threads.answer,pc]
    simp only [Threads.produce,pc] at moved
    cases Option.some.inj moved
    refine ⟨effects,kept,others,.inl ⟨rfl,rfl⟩,?_⟩
    simp only [last,silent,Option.map_none]
    exact ⟨push,untaken⟩
  | written value curTail nextTail =>
    simp only [PushAt,pc] at push
    simp only [Threads.ProducerAt,pc] at producer
    have order := inv.order
    have made := inv.made
    have answer : Threads.answer s .produce = some (.pushed true) := by simp [Threads.answer,pc]
    simp only [Threads.produce,pc] at moved
    cases Option.some.inj moved
    refine ⟨effects ++ [(issued,.pushed true)],kept,others,.inr ⟨_,untaken,?_,rfl⟩,?_⟩
    · have room : (queue s).length < capacity := by omega
      simp only [serve,push,BoundedQueue.offer,if_pos room]
      exact congrArg (Prod.mk _) (List.drop_append_of_le_length order).symm
    · simp [last,answer,ofRing,Idle]

theorem Outcome.silent {thread} (threads : Threads.Inv capacity t)
    (others : ∀ other, other ≠ thread → Unmoved s t other) (same : queue t = queue s) {stage}
    (lands : At t effects issued thread stage) :
    Outcome std capacity s effects issued thread t effects (.inl stage) :=
  ⟨threads,others,.inl ⟨rfl,same⟩,lands⟩

theorem Outcome.settles {thread answer} (threads : Threads.Inv capacity t)
    (others : ∀ other, other ≠ thread → Unmoved s t other) (untaken : Untaken effects issued)
    (served : serve std capacity (queue s) issued = (answer,queue t)) (idle : Idle t thread) :
    Outcome std capacity s effects issued thread t (effects ++ [(issued,answer)]) (.inr answer) :=
  ⟨threads,others,.inr ⟨answer,untaken,served,rfl⟩,by simp,idle⟩

theorem queueLeave (s : Threads.State) : queue (leave s) = queue s := by
  unfold leave
  split <;> rfl

theorem leaveKeeps (inv : Threads.Inv capacity s) : Threads.Inv capacity (leave s) := by
  have consumer := inv.consumer
  unfold leave
  split
  · rename_i pc
    simp only [Threads.ConsumerAt,pc] at consumer
    exact { inv with consumer := by simpa [Threads.ConsumerAt] using consumer.1 }
  · exact inv

theorem contentsIs {array n} (inv : Threads.Inv capacity s) (made : Threads.ArrayAt s s.consumed n array)
    (enough : s.consumed+n ≤ s.pushed.length) : contents s.ring array = (queue s).take n := by
  have total := queueLength inv
  cases array with
  | view start count =>
    obtain ⟨here,rfl,fits⟩ := made
    have slots := inv.length
    rw [← (queueStored inv).front (by omega),CyclicIndex.windowContiguous (by rw [inv.head]; omega),
      inv.head,← here]
    rfl
  | copied values =>
    obtain ⟨length,copied⟩ := made
    apply List.ext_getElem?
    intro i
    by_cases inside : i < n
    · have value := List.getElem?_eq_getElem (l := values) (i := i) (by omega)
      rw [List.getElem?_take_of_lt inside,queueAt,copied i _ value]
      exact value
    · rw [List.getElem?_eq_none (by rw [contents]; omega),List.getElem?_eq_none (by simp; omega)]

theorem releaseQueue {head n received consumer} :
    queue (Threads.release s head n received consumer) = (queue s).drop n := by
  rw [queue,queue,List.drop_drop]
  rfl

theorem moveKeeps {thread} (inv : Threads.Inv capacity s) (moved : move s thread = some t) :
    Threads.Inv capacity t := by
  cases thread with
  | producer => exact Threads.produceKeeps inv moved
  | consumer =>
    obtain ⟨u,consumed,rfl⟩ := Option.map_eq_some_iff.mp moved
    exact leaveKeeps (Threads.consumeKeeps inv consumed)

theorem popServed {out outVal : Option CInt} (inv : Threads.Inv capacity s)
    (call : issued.call = .pop outVal) (nonempty : s.consumed < s.pushed.length)
    (read : out = outVal.map fun _ => (queue s).headD 0) :
    serve std capacity (queue s) issued = (.popped true out,(queue s).drop 1) := by
  have total := queueLength inv
  subst read
  simp only [serve,call]
  cases entries : queue s with
  | nil =>
    rw [entries,List.length_nil] at total
    omega
  | cons v rest => rfl

theorem popOutcome {outVal curHead} (inv : Threads.Inv capacity s) (at' : PopAt s effects issued)
    (pc : s.consumer = .loadedHead outVal curHead ∨ s.consumer = .notEmpty outVal curHead)
    (moved : move s .consumer = some t) : ∃ more, Outcome std capacity s effects issued .consumer t
      more (match last s .consumer with
        | some answer => .inr answer
        | none => .inl .moving) := by
  have kept := moveKeeps inv moved
  have others := consumeUnmoved moved
  have consumer := inv.consumer
  rcases pc with pc | pc
  · simp only [PopAt,pc] at at'
    by_cases empty : curHead = s.ring.tail
    · have answer : Threads.answer s .consume = some (.popped false outVal) := by
        simp [Threads.answer,pc,empty]
      have nothing := (Threads.refusedEmpty inv answer).2
      simp only [move,Threads.consume,pc,if_pos empty] at moved
      cases Option.some.inj moved
      simp only [last,pc,answer,Option.map_some,ofRing]
      refine ⟨_,Outcome.settles kept others at'.2 ?_ rfl⟩
      have none : queue s = [] := List.drop_eq_nil_of_le (by omega)
      simp only [serve,at'.1,none]
      exact congrArg (Prod.mk _) none.symm
    · have silent : Threads.answer s .consume = none := by simp [Threads.answer,pc,empty]
      simp only [move,Threads.consume,pc,if_neg empty] at moved
      cases Option.some.inj moved
      simp only [last,pc,silent,Option.map_none]
      exact ⟨_,Outcome.silent kept others rfl at'⟩
  · simp only [PopAt,pc] at at'
    simp only [Threads.ConsumerAt,pc] at consumer
    cases outVal with
    | none =>
      have answer : Threads.answer s .consume = some (.popped true none) := by simp [Threads.answer,pc]
      simp only [move,Threads.consume,pc] at moved
      cases Option.some.inj moved
      simp only [last,pc,answer,Option.map_some,ofRing]
      refine ⟨_,Outcome.settles kept others at'.2 ?_ rfl⟩
      rw [queueLeave,releaseQueue]
      exact popServed inv at'.1 consumer.2.2 rfl
    | some old =>
      have silent : Threads.answer s .consume = none := by simp [Threads.answer,pc]
      simp only [move,Threads.consume,pc] at moved
      obtain ⟨u,consumed,rfl⟩ := Option.map_eq_some_iff.mp moved
      obtain ⟨value,_,consumed⟩ := Option.bind_eq_some_iff.mp consumed
      cases Option.some.inj consumed
      simp only [last,pc,silent,Option.map_none]
      exact ⟨_,Outcome.silent kept others rfl ⟨⟨old,value,at'.1,rfl⟩,at'.2⟩⟩

theorem takenOutcome {curHead out} (inv : Threads.Inv capacity s) (at' : PopAt s effects issued)
    (pc : s.consumer = .taken curHead out) (moved : move s .consumer = some t) :
    ∃ more, Outcome std capacity s effects issued .consumer t more (match last s .consumer with
      | some answer => .inr answer
      | none => .inl .moving) := by
  have kept := moveKeeps inv moved
  have others := consumeUnmoved moved
  have consumer := inv.consumer
  have answer : Threads.answer s .consume = some (.popped true out) := by simp [Threads.answer,pc]
  simp only [PopAt,pc] at at'
  simp only [Threads.ConsumerAt,pc] at consumer
  simp only [move,Threads.consume,pc] at moved
  cases Option.some.inj moved
  simp only [last,pc,answer,Option.map_some,ofRing]
  obtain ⟨⟨old,v,call,rfl⟩,untaken⟩ := at'
  refine ⟨_,Outcome.settles kept others untaken ?_ rfl⟩
  rw [queueLeave,releaseQueue]
  refine popServed inv call consumer.2.2.1 ?_
  have front := consumer.2.2.2 v rfl
  rw [← Nat.add_zero s.consumed,← queueAt] at front
  simp [List.headD_eq_head?_getD,List.head?_eq_getElem?,front]

theorem sizeTailOutcome {n seen} (inv : Threads.Inv capacity s) (at' : PopAt s effects issued)
    (pc : s.consumer = .sizeTail n seen) (moved : move s .consumer = some t) :
    ∃ more, Outcome std capacity s effects issued .consumer t more (match last s .consumer with
      | some answer => .inr answer
      | none => .inl .moving) := by
  have kept := moveKeeps inv moved
  have others := consumeUnmoved moved
  simp only [PopAt,pc] at at'
  simp only [move,Threads.consume,pc] at moved
  cases Option.some.inj moved
  by_cases short : ExactRing.sizeFrom s.ring.capacity seen s.ring.head < n
  · simp only [if_pos short] at at' kept others ⊢
    simp only [last,pc,if_pos short]
    exact ⟨effects,kept,others,.inl ⟨rfl,rfl⟩,at'.2,rfl⟩
  · simp only [if_neg short] at at' kept others ⊢
    simp only [last,pc,if_neg short]
    exact ⟨_,Outcome.silent kept others rfl at'⟩

theorem advancingOutcome {n cur array} (inv : Threads.Inv capacity s) (at' : PopAt s effects issued)
    (pc : s.consumer = .advancing n cur array) (moved : move s .consumer = some t) :
    ∃ more, Outcome std capacity s effects issued .consumer t more (match last s .consumer with
      | some answer => .inr answer
      | none => .inl .moving) := by
  have kept := moveKeeps inv moved
  have others := consumeUnmoved moved
  have consumer := inv.consumer
  have total := queueLength inv
  simp only [PopAt,pc] at at'
  simp only [Threads.ConsumerAt,pc] at consumer
  obtain ⟨_,_,enough,made⟩ := consumer
  simp only [move,Threads.consume,pc] at moved
  cases Option.some.inj moved
  simp only [last,pc]
  refine ⟨_,Outcome.settles kept others at'.2 ?_ ?_⟩
  · have several : ¬ (queue s).length < n := by omega
    rw [queueLeave,releaseQueue,contentsIs inv made enough]
    simp only [serve,at'.1,if_neg several]
  · by_cases nothing : n = 0
    · rw [if_pos nothing]
      rfl
    · rw [if_neg nothing]
      rfl

theorem consumeOutcome (inv : Threads.Inv capacity s) (at' : PopAt s effects issued)
    (moved : move s .consumer = some t) : ∃ more, Outcome std capacity s effects issued .consumer t
      more (match last s .consumer with
        | some answer => .inr answer
        | none => .inl .moving) := by
  have kept := moveKeeps inv moved
  have others := consumeUnmoved moved
  cases pc : s.consumer with
  | idle => simp [PopAt,pc] at at'
  | loadedHead outVal curHead => exact popOutcome inv at' (.inl pc) moved
  | notEmpty outVal curHead => exact popOutcome inv at' (.inr pc) moved
  | taken curHead out => exact takenOutcome inv at' pc moved
  | sizeTail n seen => exact sizeTailOutcome inv at' pc moved
  | advancing n cur array => exact advancingOutcome inv at' pc moved
  | reading n array i => simp [PopAt,pc] at at'
  | copying n currentHead dest =>
    have silent : last s .consumer = none := by simp [last,Threads.answer,pc]
    rw [silent]
    simp only [PopAt,pc] at at'
    simp only [move,Threads.consume,pc] at moved
    obtain ⟨u,consumed,rfl⟩ := Option.map_eq_some_iff.mp moved
    obtain ⟨value,_,consumed⟩ := Option.bind_eq_some_iff.mp consumed
    cases Option.some.inj consumed
    refine ⟨_,Outcome.silent kept others (queueLeave _) ?_⟩
    by_cases full : dest.length+1 = n
    · simp only [if_pos full]
      exact at'
    · simp only [if_neg full]
      exact at'
  | located n currentHead =>
    have silent : last s .consumer = none := by simp [last,Threads.answer,pc]
    rw [silent]
    simp only [PopAt,pc] at at'
    simp only [move,Threads.consume,pc] at moved
    cases Option.some.inj moved
    refine ⟨_,Outcome.silent kept others (queueLeave _) ?_⟩
    by_cases fits : currentHead+n ≤ slots s
    · simp only [if_pos fits]
      exact at'
    · simp only [if_neg fits]
      exact at'
  | _ =>
    have silent : last s .consumer = none := by simp [last,Threads.answer,pc]
    rw [silent]
    simp only [PopAt,pc] at at'
    simp only [move,Threads.consume,pc] at moved
    cases Option.some.inj moved
    exact ⟨_,Outcome.silent kept others rfl at'⟩

theorem askOutcome {thread query loaded} (inv : Threads.Inv capacity s)
    (at' : AskAt s effects issued thread query loaded) :
    ∃ more, Outcome std capacity s effects issued thread s more
      (.inr (.told (query.reply loaded s.ring))) := by
  obtain ⟨idle,call,took⟩ := at'
  have others : ∀ other, other ≠ thread → Unmoved s s other := fun other _ => unmovedSelf s other
  split at took
  · exact ⟨effects,inv,others,.inl ⟨rfl,rfl⟩,took,idle⟩
  · obtain ⟨untaken,rfl⟩ := took
    refine ⟨_,Outcome.settles inv others untaken ?_ idle⟩
    simp only [serve,call,replyIs inv query]

theorem sampledIs (inv : Threads.Inv capacity s) (std : StdVector) (gen : Generator) (batchSize : Nat) :
    match s.ring.sampleIndices std gen batchSize with
    | .error e => sampled std gen batchSize (queue s) = .raised e
    | .ok physInds => ∃ values, sampled std gen batchSize (queue s) = .entries values ∧
        Gathers s physInds [] values := by
  have stores := queueStored inv
  have total := queueLength inv
  unfold ExactRing.sampleIndices sampled
  rw [stores.size]
  by_cases empty : (queue s).length = 0
  · rw [if_pos empty,if_pos empty]
  rw [if_neg empty,if_neg empty]
  by_cases long : std.maxWords < batchSize
  · rw [if_pos long,if_pos long]
  rw [if_neg long,if_neg long]
  refine ⟨_,rfl,by simp,rfl,?_⟩
  intro i slot found
  rw [List.getElem?_map] at found
  obtain ⟨j,here,rfl⟩ := Option.map_eq_some_iff.mp found
  have drawn := gen.inRange ((queue s).length-1) j
  have inside : gen.draw ((queue s).length-1) j < (queue s).length := by omega
  refine ⟨s.consumed+gen.draw ((queue s).length-1) j,inv.headStep _,by omega,by omega,?_⟩
  rw [List.getElem?_map,here,← queueAt,List.getElem?_eq_getElem inside]
  simp [List.getD,inside]

theorem sampleOutcome {gen batchSize h after} (inv : Threads.Inv capacity s)
    (at' : At s effects issued .consumer (.sampling gen batchSize h))
    (accessed : access std s .consumer (.sampling gen batchSize h) = some (t,after)) :
    ∃ more, Outcome std capacity s effects issued .consumer t more after := by
  obtain ⟨idle,call,rfl,untaken⟩ := at'
  have others : ∀ other, other ≠ .consumer → Unmoved s s other := fun other _ => unmovedSelf s other
  have drawn := sampledIs inv std gen batchSize
  simp only [access] at accessed
  split at accessed
  · rename_i e refused
    cases Option.some.inj accessed
    rw [refused] at drawn
    exact ⟨_,Outcome.settles inv others untaken (by simp only [serve,call,drawn]) idle⟩
  · rename_i nothing
    cases Option.some.inj accessed
    rw [nothing] at drawn
    obtain ⟨values,served,length,_⟩ := drawn
    have none : values = [] := List.length_eq_zero_iff.mp length
    subst none
    exact ⟨_,Outcome.settles inv others untaken (by simp only [serve,call,served]) idle⟩
  · rename_i i physInds some
    cases Option.some.inj accessed
    rw [some] at drawn
    obtain ⟨values,served,gathers⟩ := drawn
    refine ⟨effects ++ [(issued,.entries values)],inv,others,
      .inr ⟨_,untaken,by simp only [serve,call,served],rfl⟩,idle,?_,values,by simp,gathers⟩
    simp

theorem gatherOutcome {physInds dest after} (inv : Threads.Inv capacity s)
    (at' : At s effects issued .consumer (.gathering physInds dest))
    (accessed : access std s .consumer (.gathering physInds dest) = some (t,after)) :
    ∃ more, Outcome std capacity s effects issued .consumer t more after := by
  obtain ⟨idle,part,values,took,length,copied,named⟩ := at'
  obtain ⟨i,found,accessed⟩ := Option.bind_eq_some_iff.mp accessed
  obtain ⟨value,read,accessed⟩ := Option.bind_eq_some_iff.mp accessed
  cases Option.some.inj accessed
  have others : ∀ other, other ≠ .consumer → Unmoved s s other := fun other _ => unmovedSelf s other
  obtain ⟨p,rfl,least,below,entry⟩ := named dest.length i found
  rw [inv.live p least below,← entry] at read
  have longer : dest ++ [value] = values.take (dest.length+1) := by
    rw [List.take_add_one,read,← copied]
    rfl
  refine ⟨effects,inv,others,.inl ⟨rfl,rfl⟩,?_⟩
  by_cases full : dest.length+1 = physInds.length
  · simp only [if_pos full]
    rw [longer,List.take_of_length_le (by omega)]
    exact ⟨took,idle⟩
  · simp only [if_neg full]
    refine ⟨idle,by simp; omega,values,took,length,?_,named⟩
    rw [List.length_append,List.length_singleton]
    exact longer

theorem accessOutcome {thread stage after} (inv : Threads.Inv capacity s)
    (at' : At s effects issued thread stage) (accessed : access std s thread stage = some (t,after)) :
    ∃ more, Outcome std capacity s effects issued thread t more after := by
  cases stage with
  | moving =>
    obtain ⟨now,moved,accessed⟩ := Option.bind_eq_some_iff.mp accessed
    cases Option.some.inj accessed
    cases thread with
    | producer => exact produceOutcome inv at' moved
    | consumer => exact consumeOutcome inv at' moved
  | asking query loaded =>
    cases Option.some.inj accessed
    exact askOutcome inv (atAsking.mp at')
  | sampling gen batchSize h =>
    cases thread with
    | producer => exact at'.elim
    | consumer => exact sampleOutcome inv at' accessed
  | gathering physInds dest =>
    cases thread with
    | producer => exact at'.elim
    | consumer => exact gatherOutcome inv at' accessed

theorem firstUnmoved {call stage} (began : first s call = some (t,stage)) :
    ∀ other, other ≠ call.thread → Unmoved s t other := by
  intro other different
  cases call with
  | push value =>
    obtain ⟨now,moved,same⟩ := Option.map_eq_some_iff.mp began
    obtain ⟨rfl,rfl⟩ := Prod.mk.inj same
    obtain ⟨_,rfl⟩ := Threads.beginPushIs moved
    cases other with
    | producer => exact absurd rfl different
    | consumer => exact ⟨rfl,rfl,rfl,rfl,List.prefix_refl _⟩
  | ask thread query =>
    cases Option.some.inj began
    exact unmovedSelf s other
  | sample gen batchSize =>
    cases Option.some.inj began
    exact unmovedSelf s other
  | _ =>
    obtain ⟨now,moved,same⟩ := Option.map_eq_some_iff.mp began
    obtain ⟨rfl,rfl⟩ := Prod.mk.inj same
    obtain ⟨_,rfl⟩ := Threads.beginCallIs moved
    cases other with
    | producer => exact ⟨rfl,rfl,rfl⟩
    | consumer => exact absurd rfl different

theorem firstOutcome {number call stage} (inv : Threads.Inv capacity s) (idle : Idle s call.thread)
    (untaken : Untaken effects ⟨number,call⟩) (began : first s call = some (t,stage)) :
    ∃ more, Outcome std capacity s effects ⟨number,call⟩ call.thread t more (.inl stage) := by
  have others := firstUnmoved began
  cases call with
  | push value =>
    obtain ⟨now,moved,same⟩ := Option.map_eq_some_iff.mp began
    obtain ⟨rfl,rfl⟩ := Prod.mk.inj same
    have kept := Threads.stepKeeps inv moved
    obtain ⟨_,rfl⟩ := Threads.beginPushIs moved
    exact ⟨effects,kept,others,.inl ⟨rfl,rfl⟩,rfl,untaken⟩
  | pop outVal =>
    obtain ⟨now,moved,same⟩ := Option.map_eq_some_iff.mp began
    obtain ⟨rfl,rfl⟩ := Prod.mk.inj same
    have kept := Threads.stepKeeps inv moved
    obtain ⟨_,rfl⟩ := Threads.beginCallIs moved
    exact ⟨effects,kept,others,.inl ⟨rfl,rfl⟩,rfl,untaken⟩
  | popView n =>
    obtain ⟨now,moved,same⟩ := Option.map_eq_some_iff.mp began
    obtain ⟨rfl,rfl⟩ := Prod.mk.inj same
    have kept := Threads.stepKeeps inv moved
    have size : ExactRing.sizeFrom s.ring.capacity s.ring.tail s.ring.head = (queue s).length :=
      (queueStored inv).size
    obtain ⟨_,rfl⟩ := Threads.beginCallIs moved
    by_cases short : (queue s).length < n
    · refine ⟨effects ++ [(⟨number,.popView n⟩,notEnough)],kept,others,
        .inr ⟨_,untaken,by simp only [serve,if_pos short]; rfl,rfl⟩,rfl,?_⟩
      rw [size,if_pos short]
      simp
    · refine ⟨effects,kept,others,.inl ⟨rfl,rfl⟩,rfl,?_⟩
      rw [size,if_neg short]
      exact untaken
  | ask thread query =>
    cases Option.some.inj began
    by_cases other : loadsOther thread query = true
    · refine ⟨effects ++ [(⟨number,.ask thread query⟩,.told (reply (queue s) query))],inv,others,
        .inr ⟨_,untaken,rfl,rfl⟩,atAsking.mpr ⟨idle,rfl,?_⟩⟩
      simp only [Call.thread,if_pos other,replyIs inv query]
      simp
    · refine ⟨effects,inv,others,.inl ⟨rfl,rfl⟩,atAsking.mpr ⟨idle,rfl,?_⟩⟩
      simp only [Call.thread,if_neg other]
      exact ⟨untaken,trivial⟩
  | sample gen batchSize =>
    cases Option.some.inj began
    exact ⟨effects,inv,others,.inl ⟨rfl,rfl⟩,idle,rfl,rfl,untaken⟩

section
variable {s t : State} {now : Threads.State} {calls : Thread → Option (Ticket × Stage)}
  {events : List (Event Ticket Answer)} {thread : Thread} {stage : Stage} {after : Stage ⊕ Answer}

theorem standingElsewhere {u : Threads.State} {other : Thread}
    (books : Books Call.thread (serve std capacity) [] calls events effects (queue u))
    (here : calls thread = some (issued,stage)) (standing : Standing u effects other (calls other))
    (outcome : Outcome std capacity u effects issued thread now more after)
    (different : other ≠ thread) : Standing now more other (calls other) := by
  have unmoved := outcome.others other different
  have grown : effects ⊆ more := by
    rcases outcome.effect with ⟨rfl,_⟩ | ⟨answer,_,_,rfl⟩
    · exact List.Subset.refl _
    · exact List.subset_append_left _ _
  cases there : calls other with
  | none =>
    rw [there] at standing
    exact idleKept unmoved standing
  | some call =>
    obtain ⟨issued',stage'⟩ := call
    rw [there] at standing
    refine At.kept standing unmoved grown fun untaken => ?_
    rcases outcome.effect with ⟨rfl,_⟩ | ⟨answer,_,_,rfl⟩
    · exact untaken
    · have apart := books.apart here there different.symm
      unfold Untaken at untaken ⊢
      simp only [List.map_append,List.map_cons,List.map_nil,List.mem_append,List.mem_singleton]
      exact fun mem => mem.elim untaken apart

theorem Outcome.books {u : Threads.State}
    (outcome : Outcome std capacity u effects issued thread now more after)
    (books : Books Call.thread (serve std capacity) [] calls events effects (queue u))
    (here : calls thread = some (issued,stage)) :
    Books Call.thread (serve std capacity) [] calls events more (queue now) := by
  rcases outcome.effect with ⟨rfl,same⟩ | ⟨answer,untaken,served,rfl⟩
  · rw [same]
    exact books
  · exact books.takesEffect here untaken served

theorem standingUpdate {here : Option (Ticket × Stage)}
    (elsewhere : ∀ other, other ≠ thread → Standing now more other (calls other))
    (own : Standing now more thread here) :
    ∀ other, Standing now more other (Function.update calls thread here other) := by
  intro other
  by_cases same : other = thread
  · subst same
    rwa [Function.update_self]
  · rw [Function.update_of_ne same]
    exact elsewhere other same

def mover (s : State) : Action → Option Ticket
  | .call c => some ⟨(begun s.events).length,c⟩
  | .go thread => (s.calls thread).map Prod.fst

def Grows (s : State) (action : Action) (effects more : List (Ticket × Answer)) : Prop :=
  more = effects ∨ ∃ issued answer, mover s action = some issued ∧ more = effects ++ [(issued,answer)]

theorem Outcome.grows {u : Threads.State} {action : Action}
    (outcome : Outcome std capacity u effects issued thread now more after)
    (own : mover s action = some issued) : Grows s action effects more := by
  rcases outcome.effect with ⟨same,_⟩ | ⟨answer,_,_,one⟩
  · exact .inl same
  · exact .inr ⟨issued,answer,own,one⟩

theorem goKeeps (inv : Inv std capacity s effects) (moved : go std s thread = some t) :
    ∃ more, Inv std capacity t more ∧ Grows s (.go thread) effects more := by
  obtain ⟨issued,stage,now,after,here,accessed,rfl⟩ := goIs moved
  have at' := inv.standing thread
  rw [here] at at'
  obtain ⟨more,outcome⟩ := accessOutcome inv.threads at' accessed
  have books := outcome.books inv.books here
  have lands := outcome.lands
  have elsewhere : ∀ other, other ≠ thread → Standing now more other (s.calls other) :=
    fun other => standingElsewhere inv.books here (inv.standing other) outcome
  refine ⟨more,?_,outcome.grows (by rw [mover,here]; rfl)⟩
  cases after with
  | inl stage' => exact ⟨outcome.threads,books.goesOn here stage',standingUpdate elsewhere lands⟩
  | inr answer => exact ⟨outcome.threads,books.returns here lands.1,standingUpdate elsewhere lands.2⟩

theorem beginKeeps {call} (inv : Inv std capacity s effects) (moved : begin s call = some t) :
    ∃ more, Inv std capacity t more ∧ Grows s (.call call) effects more := by
  obtain ⟨free,now,stage,began,rfl⟩ := beginIs moved
  have idle := inv.standing call.thread
  rw [free] at idle
  have books := inv.books.begins call stage free
  have untaken := inv.books.unissued call
  have settled : ∃ more, Outcome std capacity s.now effects ⟨(begun s.events).length,call⟩ call.thread
      now more (.inl stage) := firstOutcome inv.threads idle untaken began
  obtain ⟨more,outcome⟩ := settled
  have here := Function.update_self call.thread
    (some ((⟨(begun s.events).length,call⟩ : Ticket),stage)) s.calls
  refine ⟨more,⟨outcome.threads,outcome.books books here,standingUpdate (fun other different => ?_)
    outcome.lands⟩,outcome.grows rfl⟩
  have standing := inv.standing other
  rw [← Function.update_of_ne different (some ((⟨(begun s.events).length,call⟩ : Ticket),stage)) s.calls]
    at standing ⊢
  exact standingElsewhere books here standing outcome different

theorem stepKeeps {action} (inv : Inv std capacity s effects) (moved : step std s action = some t) :
    ∃ more, Inv std capacity t more ∧ Grows s action effects more := by
  cases action with
  | call c => exact beginKeeps inv moved
  | go thread => exact goKeeps inv moved

end

/- A run whose calls take effect one by one, each at an access of its own, on a queue that
the memory of the two threads stores all along. -/
inductive Effected (std : StdVector) (capacity : Nat) :
    List Action → State → List (Ticket × Answer) → Prop where
  | start : Effected std capacity [] (init capacity) []
  | next {acts s effects action t more entries} (before : Effected std capacity acts s effects)
      (moved : step std s action = some t) (grows : Grows s action effects more)
      (takes : Takes (serve std capacity) [] t.events more entries)
      (stores : t.now.ring.Stores entries) : Effected std capacity (acts ++ [action]) t more

theorem runEffected {std : StdVector} {capacity : Nat} {acts : List Action} {s : State}
    (run : exec (step std) (init capacity) acts = some s) :
    ∃ effects, Inv std capacity s effects ∧ Effected std capacity acts s effects := by
  induction acts using List.reverseRecOn generalizing s with
  | nil =>
    cases Option.some.inj run
    exact ⟨[],initInv std capacity,.start⟩
  | append_singleton acts action ih =>
    obtain ⟨mid,earlier,moved⟩ := execSnoc.mp run
    obtain ⟨effects,inv,before⟩ := ih earlier
    obtain ⟨more,kept,grows⟩ := stepKeeps inv moved
    exact ⟨more,kept,.next before moved grows kept.books.takes (queueStored kept.threads)⟩

theorem apiLinearizes (std : StdVector) (capacity : Nat) (acts : List Action) (s : State)
    (run : exec (step std) (init capacity) acts = some s) :
    ∃ effects entries, Effected std capacity acts s effects ∧
      Takes (serve std capacity) [] s.events effects entries ∧
      s.now.ring.Stores entries ∧ s.now.ring.capacity = capacity ∧
      ((∀ thread, s.calls thread = none) →
        Linearizes (serve std capacity) [] s.events effects entries) := by
  obtain ⟨effects,inv,effected⟩ := runEffected run
  exact ⟨effects,queue s.now,effected,inv.books.takes,queueStored inv.threads,inv.threads.made,
    inv.books.linearizes⟩

theorem apiLinearizesAtOne : ∃ s effects,
    exec (step StdVector.small) (init 1) [.call (.push 5),.call (.popView 1),.go .producer,.go .producer,
      .go .producer,.go .consumer,.call (.sample (.always 0) 2),.call (.ask .producer .emptyHeadFirst),
      .go .consumer,.go .consumer,.go .producer,.go .consumer] = some s ∧
    answered s.events = [(⟨0,.push 5⟩,.pushed true),(⟨1,.popView 1⟩,notEnough),
      (⟨3,.ask .producer .emptyHeadFirst⟩,.told (.flag false)),
      (⟨2,.sample (.always 0) 2⟩,.entries [5,5])] ∧
    Linearizes (serve StdVector.small 1) [] s.events effects [5] := by
  obtain ⟨effects,entries,_,_,stores,_,linear⟩ := apiLinearizes StdVector.small 1
    [.call (.push 5),.call (.popView 1),.go .producer,.go .producer,.go .producer,.go .consumer,
      .call (.sample (.always 0) 2),.call (.ask .producer .emptyHeadFirst),.go .consumer,.go .consumer,
      .go .producer,.go .consumer] _ rfl
  have one : entries.length = 1 := stores.size.symm
  have held : entries[0]? = some 5 := (stores.live 0 (Nat.lt_of_lt_of_eq Nat.one_pos one.symm)).symm
  have five : entries = [5] := by
    obtain ⟨entry,rfl⟩ := List.length_eq_one_iff.mp one
    exact congrArg (fun e => [e]) (Option.some.inj held)
  subst five
  exact ⟨_,effects,rfl,rfl,linear fun thread => by cases thread <;> rfl⟩

end FastReplay.Spsc
