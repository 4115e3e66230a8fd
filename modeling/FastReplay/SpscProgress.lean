import FastReplay.Progress
import FastReplay.SpscLinearized

/-! No call ever waits for the other thread: whatever that one does, the next access of
a call can be made, and a call returns after a number of accesses that is known when it
begins. -/
namespace FastReplay.Spsc
open GuardedRun CallHistory EffectOrder
open Threads (Thread slots)

def Call.accesses : Call → Nat
  | .push _ | .pop _ => 3
  | .popView n => 5 + max n 1
  | .ask _ _ => 1
  | .sample _ batchSize => batchSize + 1

def produceOwed : Stale.Producer → Nat
  | .idle => 0
  | .loadedTail _ _ _ => 3
  | .notFull _ _ _ => 2
  | .written _ _ _ => 1

def consumeOwed : Threads.Consumer → Nat
  | .idle | .reading _ _ _ => 0
  | .loadedHead _ _ => 3
  | .notEmpty _ _ => 2
  | .taken _ _ => 1
  | .sizeTail n _ => 5 + max n 1
  | .sized n => 4 + max n 1
  | .located n _ => 3 + max n 1
  | .contiguous _ _ => 3
  | .copying n _ dest => 2 + (n-dest.length)
  | .built _ _ => 2
  | .advancing _ _ _ => 1

def owed (s : Threads.State) : Thread → Stage → Nat
  | .producer,.moving => produceOwed s.producer
  | .consumer,.moving => consumeOwed s.consumer
  | _,.asking _ _ => 1
  | _,.sampling _ batchSize _ => batchSize + 1
  | _,.gathering physInds dest => physInds.length - dest.length

def Action.of (thread : Thread) : Action → Bool
  | .call _ => false
  | .go other => other = thread

variable {std : StdVector} {capacity : Nat} {effects more : List (Ticket × Answer)} {issued : Ticket}
  {s t : Threads.State} {thread : Thread} {stage : Stage}

theorem consumeMoves (inv : Threads.Inv capacity s) (at' : PopAt s effects issued) :
    ∃ t, move s .consumer = some t := by
  have busy : s.consumer ≠ .idle := fun idle => by simp [PopAt,idle] at at'
  obtain ⟨t,moved⟩ := Threads.consumeMoves inv busy
  exact ⟨leave t,by simp only [move,moved,Option.map_some]⟩

theorem accessMoves (inv : Threads.Inv capacity s) (at' : At s effects issued thread stage) :
    ∃ t after, access std s thread stage = some (t,after) := by
  cases stage with
  | asking query loaded => exact ⟨_,_,rfl⟩
  | moving =>
    have moves : ∃ t, move s thread = some t := by
      cases thread with
      | producer => exact Threads.produceMoves fun idle => by simp [At,PushAt,idle] at at'
      | consumer => exact consumeMoves inv at'
    obtain ⟨now,moved⟩ := moves
    simp [access,moved]
  | sampling gen batchSize h =>
    simp only [access]
    split <;> exact ⟨_,_,rfl⟩
  | gathering physInds dest =>
    cases thread with
    | producer => exact at'.elim
    | consumer =>
      obtain ⟨_,part,values,_,_,_,named⟩ := at'
      have found := List.getElem?_eq_getElem part
      obtain ⟨p,slot,_,_,_⟩ := named _ _ found
      have inside : physInds[dest.length] < slots s := by
        rw [slot]
        exact Nat.mod_lt _ (Threads.slotsPositive s)
      obtain ⟨value,read⟩ := Threads.slotRead inv inside
      simp [access,found,read]

theorem owedPositive (at' : At s effects issued thread stage) : 0 < owed s thread stage := by
  cases stage with
  | asking query loaded => cases thread <;> exact Nat.one_pos
  | sampling gen batchSize h => cases thread <;> exact Nat.succ_pos _
  | moving =>
    cases thread with
    | producer =>
      have push := at'.1
      unfold PushAt at push
      simp only [owed]
      split at push
      · contradiction
      all_goals
        rename_i pc
        simp [pc,produceOwed]
    | consumer =>
      simp only [At,PopAt] at at'
      simp only [owed]
      split at at' <;> try contradiction
      all_goals
        rename_i pc
        simp only [pc,consumeOwed]
        omega
  | gathering physInds dest =>
    cases thread with
    | producer => exact at'.elim
    | consumer =>
      have part := at'.2.1
      simp only [owed]
      omega

theorem producePays (moved : Threads.produce s = some t) :
    produceOwed t.producer + 1 ≤ produceOwed s.producer := by
  unfold Threads.produce at moved
  split at moved <;> try contradiction
  all_goals
    rename_i pc
    cases Option.some.inj moved
    simp only [pc]
  · split <;> simp [produceOwed]
  all_goals exact Nat.le_refl _

theorem leaveOwes (s : Threads.State) : consumeOwed (leave s).consumer = consumeOwed s.consumer := by
  unfold leave
  split
  · rename_i pc
    rw [pc]
    rfl
  · rfl

theorem consumePays (inv : Threads.Inv capacity s) (at' : PopAt s effects issued)
    (moved : move s .consumer = some t) : consumeOwed t.consumer + 1 ≤ consumeOwed s.consumer := by
  obtain ⟨now,consumed,rfl⟩ := Option.map_eq_some_iff.mp moved
  rw [leaveOwes]
  have consumer := inv.consumer
  unfold Threads.consume at consumed
  cases pc : s.consumer with
  | idle => simp [pc] at consumed
  | reading n array i => simp [PopAt,pc] at at'
  | notEmpty outVal curHead =>
    cases outVal with
    | none =>
      simp only [pc] at consumed
      cases Option.some.inj consumed
      simp [Threads.release,consumeOwed]
    | some old =>
      simp only [pc] at consumed
      obtain ⟨value,_,consumed⟩ := Option.bind_eq_some_iff.mp consumed
      cases Option.some.inj consumed
      exact Nat.le_refl _
  | copying n currentHead dest =>
    simp only [Threads.ConsumerAt,pc] at consumer
    simp only [pc] at consumed
    obtain ⟨value,_,consumed⟩ := Option.bind_eq_some_iff.mp consumed
    cases Option.some.inj consumed
    have part := consumer.2.2.2.1
    by_cases full : dest.length+1 = n
    · simp only [if_pos full,consumeOwed]
      omega
    · simp only [if_neg full,consumeOwed,List.length_append,List.length_singleton]
      omega
  | located n currentHead =>
    simp only [pc] at consumed
    cases Option.some.inj consumed
    dsimp only
    split
    · simp only [consumeOwed]
      omega
    · simp only [consumeOwed,List.length_nil]
      omega
  | advancing n cur array =>
    simp only [pc] at consumed
    cases Option.some.inj consumed
    simp only [Threads.release]
    split <;> exact Nat.le_refl _
  | loadedHead outVal curHead =>
    simp only [pc] at consumed
    cases Option.some.inj consumed
    dsimp only
    split <;> simp [consumeOwed]
  | sizeTail n seen =>
    simp only [pc] at consumed
    cases Option.some.inj consumed
    dsimp only
    split <;> simp only [consumeOwed] <;> omega
  | _ =>
    simp only [pc] at consumed
    cases Option.some.inj consumed
    simp only [Threads.release,consumeOwed]
    omega

theorem sampledLength {r : ExactRing} {gen batchSize physInds}
    (drawn : r.sampleIndices std gen batchSize = .ok physInds) : physInds.length = batchSize := by
  unfold ExactRing.sampleIndices at drawn
  split at drawn <;> try contradiction
  split at drawn <;> try contradiction
  cases Except.ok.inj drawn
  rw [List.length_map,List.length_range]

theorem accessPays {stage'} (inv : Threads.Inv capacity s) (at' : At s effects issued thread stage)
    (accessed : access std s thread stage = some (t,.inl stage')) :
    owed t thread stage' + 1 ≤ owed s thread stage := by
  cases stage with
  | asking query loaded =>
    cases Option.some.inj accessed
  | moving =>
    obtain ⟨now,moved,accessed⟩ := Option.bind_eq_some_iff.mp accessed
    have paid := Prod.mk.inj (Option.some.inj accessed)
    cases paid.1
    have still := paid.2
    split at still <;> try contradiction
    cases Sum.inl.inj still
    cases thread with
    | producer => exact producePays moved
    | consumer => exact consumePays inv at' moved
  | sampling gen batchSize h =>
    simp only [access] at accessed
    split at accessed
    · cases Option.some.inj accessed
    · cases Option.some.inj accessed
    · rename_i i physInds drawn
      cases Option.some.inj accessed
      have length := sampledLength drawn
      cases thread <;> simp only [owed,List.length_nil] <;> omega
  | gathering physInds dest =>
    cases thread with
    | producer => exact at'.elim
    | consumer =>
      obtain ⟨i,_,accessed⟩ := Option.bind_eq_some_iff.mp accessed
      obtain ⟨value,_,accessed⟩ := Option.bind_eq_some_iff.mp accessed
      have paid := Prod.mk.inj (Option.some.inj accessed)
      cases paid.1
      have still := paid.2
      split at still <;> try contradiction
      cases Sum.inl.inj still
      have part := at'.2.1
      simp only [owed,List.length_append,List.length_singleton]
      omega

theorem firstOwes {call} (began : first s call = some (t,stage)) :
    owed t call.thread stage ≤ call.accesses := by
  cases call with
  | push value =>
    obtain ⟨now,moved,same⟩ := Option.map_eq_some_iff.mp began
    obtain ⟨rfl,rfl⟩ := Prod.mk.inj same
    obtain ⟨_,rfl⟩ := Threads.beginPushIs moved
    exact Nat.le_refl _
  | pop outVal =>
    obtain ⟨now,moved,same⟩ := Option.map_eq_some_iff.mp began
    obtain ⟨rfl,rfl⟩ := Prod.mk.inj same
    obtain ⟨_,rfl⟩ := Threads.beginCallIs moved
    exact Nat.le_refl _
  | popView n =>
    obtain ⟨now,moved,same⟩ := Option.map_eq_some_iff.mp began
    obtain ⟨rfl,rfl⟩ := Prod.mk.inj same
    obtain ⟨_,rfl⟩ := Threads.beginCallIs moved
    exact Nat.le_refl _
  | ask thread query =>
    cases Option.some.inj began
    cases thread <;> exact Nat.le_refl _
  | sample gen batchSize =>
    cases Option.some.inj began
    exact Nat.le_refl _

theorem owedKept (unmoved : Unmoved s t thread) : owed t thread stage = owed s thread stage := by
  cases stage with
  | moving =>
    cases thread with
    | producer => exact congrArg produceOwed unmoved.1
    | consumer => exact congrArg consumeOwed unmoved.1
  | _ => cases thread <;> rfl

theorem accessUnmoved {after} (accessed : access std s thread stage = some (t,after)) :
    ∀ other, other ≠ thread → Unmoved s t other := by
  intro other different
  cases stage with
  | moving =>
    obtain ⟨now,moved,accessed⟩ := Option.bind_eq_some_iff.mp accessed
    cases Option.some.inj accessed
    cases thread with
    | producer => exact produceUnmoved moved other different
    | consumer => exact consumeUnmoved moved other different
  | asking query loaded =>
    cases Option.some.inj accessed
    exact unmovedSelf s other
  | sampling gen batchSize h =>
    simp only [access] at accessed
    split at accessed <;> (cases Option.some.inj accessed; exact unmovedSelf s other)
  | gathering physInds dest =>
    obtain ⟨i,_,accessed⟩ := Option.bind_eq_some_iff.mp accessed
    obtain ⟨value,_,accessed⟩ := Option.bind_eq_some_iff.mp accessed
    cases Option.some.inj accessed
    exact unmovedSelf s other

section
variable {s t : State}

theorem stepPays {action} (inv : Inv std capacity s effects)
    (here : s.calls thread = some (issued,stage)) (moved : step std s action = some t) :
    issued ∈ (answered t.events).map Prod.fst ∨ ∃ stage', t.calls thread = some (issued,stage') ∧
      owed t.now thread stage' + (if action.of thread then 1 else 0) ≤ owed s.now thread stage := by
  cases action with
  | call c =>
    obtain ⟨free,now,stage',began,rfl⟩ := beginIs moved
    have different : thread ≠ c.thread := by
      intro same
      rw [same,free] at here
      contradiction
    have still := (Function.update_of_ne different
      (some ((⟨(begun s.events).length,c⟩ : Ticket),stage')) s.calls).trans here
    exact .inr ⟨stage,still,Nat.le_of_eq (owedKept (firstUnmoved began thread different))⟩
  | go other =>
    obtain ⟨issued',stage',now,after,there,accessed,rfl⟩ := goIs moved
    by_cases same : other = thread
    · subst same
      have at' := inv.standing other
      rw [here] at at' there
      cases Option.some.inj there
      cases after with
      | inl stage'' =>
        have paid := accessPays inv.threads at' accessed
        have still := Function.update_self other (some (issued,stage'')) s.calls
        exact .inr ⟨stage'',still,by simpa [Action.of] using paid⟩
      | inr answer => exact .inl (by simp)
    · have unmoved := accessUnmoved accessed thread (Ne.symm same)
      have idle : (Action.go other).of thread = false := decide_eq_false same
      have kept : owed now thread stage + (if (Action.go other).of thread then 1 else 0) ≤
          owed s.now thread stage := by
        rw [idle]
        exact Nat.le_of_eq (owedKept unmoved)
      cases after with
      | inl stage'' => exact .inr ⟨stage,(Function.update_of_ne (Ne.symm same) _ _).trans here,kept⟩
      | inr answer => exact .inr ⟨stage,(Function.update_of_ne (Ne.symm same) _ _).trans here,kept⟩

theorem answeredStays {action} (moved : step std s action = some t)
    (returned : issued ∈ (answered s.events).map Prod.fst) :
    issued ∈ (answered t.events).map Prod.fst := by
  cases action with
  | call c =>
    obtain ⟨_,now,stage,_,rfl⟩ := beginIs moved
    simpa using returned
  | go thread =>
    obtain ⟨issued',stage,now,after,_,_,rfl⟩ := goIs moved
    cases after with
    | inl stage => exact returned
    | inr answer =>
      simp only [answeredAppend,List.map_append]
      exact List.mem_append_left _ returned

def Owing (s : State) : Prop := ∀ thread issued stage, s.calls thread = some (issued,stage) →
  owed s.now thread stage ≤ issued.call.accesses

theorem owingElsewhere {now : Threads.State} {calls} (owing : Owing s)
    (unmoved : ∀ other, other ≠ thread → Unmoved s.now now other)
    (elsewhere : ∀ other, other ≠ thread → calls other = s.calls other)
    (own : ∀ issued stage, calls thread = some (issued,stage) →
      owed now thread stage ≤ issued.call.accesses) (events) : Owing ⟨now,calls,events⟩ := by
  intro other issued stage here
  by_cases same : other = thread
  · subst same
    exact own issued stage here
  · have before := owing other issued stage ((elsewhere other same).symm.trans here)
    exact (owedKept (unmoved other same)).trans_le before

theorem stepOwing {action} (inv : Inv std capacity s effects) (owing : Owing s)
    (moved : step std s action = some t) : Owing t := by
  cases action with
  | call c =>
    obtain ⟨_,now,stage,began,rfl⟩ := beginIs moved
    refine owingElsewhere owing (firstUnmoved began)
      (fun _ different => Function.update_of_ne different _ _) ?_ _
    intro issued stage' here
    rw [Function.update_self] at here
    cases Option.some.inj here
    exact firstOwes began
  | go thread =>
    obtain ⟨issued,stage,now,after,here,accessed,rfl⟩ := goIs moved
    cases after with
    | inl stage' =>
      refine owingElsewhere owing (accessUnmoved accessed)
        (fun _ different => Function.update_of_ne different _ _) ?_ _
      intro issued' stage'' there
      rw [Function.update_self] at there
      cases Option.some.inj there
      have at' := inv.standing thread
      rw [here] at at'
      have paid := accessPays inv.threads at' accessed
      have before := owing thread issued stage here
      omega
    | inr answer =>
      refine owingElsewhere owing (accessUnmoved accessed)
        (fun _ different => Function.update_of_ne different _ _) ?_ _
      intro issued' stage' there
      rw [Function.update_self] at there
      contradiction

end

theorem runOwing {acts} {s : State} (run : exec (step std) (init capacity) acts = some s) :
    (∃ effects, Inv std capacity s effects) ∧ Owing s := by
  refine preserved (I := fun s => (∃ effects, Inv std capacity s effects) ∧ Owing s) ?_ run
    ⟨⟨[],initInv std capacity⟩,fun _ _ _ here => by contradiction⟩
  intro s action t inv moved
  obtain ⟨⟨effects,inv⟩,owing⟩ := inv
  obtain ⟨more,kept,_⟩ := stepKeeps inv moved
  exact ⟨⟨more,kept⟩,stepOwing inv owing moved⟩

def due (thread : Thread) (s : State) : Nat := match s.calls thread with
  | none => 0
  | some (_,stage) => owed s.now thread stage

theorem dueIs {s : State} (here : s.calls thread = some (issued,stage)) :
    due thread s = owed s.now thread stage := by
  simp only [due,here]

theorem returnsWithin {s t : State} {later} (inv : Inv std capacity s effects)
    (here : s.calls thread = some (issued,stage)) (ran : exec (step std) s later = some t)
    (enough : due thread s ≤ later.countP (Action.of thread)) :
    issued ∈ (answered t.events).map Prod.fst := by
  refine Progress.doneWithin
    (fun u => (∃ effects, Inv std capacity u effects) ∧ ∃ stage, u.calls thread = some (issued,stage))
    (fun u => issued ∈ (answered u.events).map Prod.fst) (due thread) (Action.of thread) ?_ ?_
    (fun _ _ _ returned moved => answeredStays moved returned) ran ⟨⟨effects,inv⟩,stage,here⟩ enough
  · intro u action v busy moved
    obtain ⟨⟨effects,inv⟩,stage,here⟩ := busy
    cases stepPays inv here moved with
    | inl returned => exact .inl returned
    | inr still =>
      obtain ⟨stage',there,paid⟩ := still
      obtain ⟨more,kept,_⟩ := stepKeeps inv moved
      rw [dueIs there,dueIs here]
      exact .inr ⟨⟨⟨more,kept⟩,stage',there⟩,paid⟩
  · intro u busy
    obtain ⟨⟨effects,inv⟩,stage,here⟩ := busy
    have at' := inv.standing thread
    rw [here] at at'
    rw [dueIs here]
    exact owedPositive at'

theorem apiWaitFree (std : StdVector) (capacity : Nat) (acts : List Action) (s : State)
    (run : exec (step std) (init capacity) acts = some s) (thread : Thread) (issued : Ticket)
    (stage : Stage) (here : s.calls thread = some (issued,stage)) :
    (∃ t, step std s (.go thread) = some t) ∧
    ∀ later t, exec (step std) s later = some t →
      issued.call.accesses ≤ later.countP (Action.of thread) →
      issued ∈ (answered t.events).map Prod.fst := by
  obtain ⟨⟨effects,inv⟩,owing⟩ := runOwing run
  constructor
  · have at' := inv.standing thread
    rw [here] at at'
    have moves : ∃ now after, access std s.now thread stage = some (now,after) :=
      accessMoves inv.threads at'
    obtain ⟨now,after,accessed⟩ := moves
    cases after with
    | inl stage' => simp [step,go,here,accessed]
    | inr answer => simp [step,go,here,accessed]
  · intro later t ran enough
    have bound := owing thread issued stage here
    rw [← dueIs here] at bound
    exact returnsWithin inv here ran (bound.trans enough)

theorem apiWaitFreeAtOne : ∃ s t, exec (step StdVector.small) (init 1)
      [.call (.push 5),.go .producer,.go .producer,.go .producer,.call (.push 6),.call (.popView 1)] =
        some s ∧
    exec (step StdVector.small) s [.go .consumer,.go .consumer,.go .consumer,.go .producer,
      .go .consumer,.go .consumer,.go .consumer] = some t ∧
    ⟨2,.popView 1⟩ ∈ (answered t.events).map Prod.fst := by
  have free := apiWaitFree StdVector.small 1
    [.call (.push 5),.go .producer,.go .producer,.go .producer,.call (.push 6),.call (.popView 1)] _ rfl
    .consumer ⟨2,.popView 1⟩ _ rfl
  exact ⟨_,_,rfl,rfl,free.2 [.go .consumer,.go .consumer,.go .consumer,.go .producer,.go .consumer,
    .go .consumer,.go .consumer] _ rfl (by decide)⟩

end FastReplay.Spsc
