import FastReplay.WeakCalls

/-! What is read under stale loads, whatever the order of the consumer's calls: what pop
returns and what sampled indices name are always entries that were pushed. -/
namespace FastReplay.Weak
open GuardedRun
open Stale (Producer visible visibleAt)
open StoreHistory (Store)

def freed (s : State) : Nat := s.released.getD s.seenHead 0

def ProducerAt (capacity : Nat) (s : State) : Prop := match s.producer with
  | .idle => s.writes.length = s.pushed.length
  | .loadedTail _ curTail nextTail => s.writes.length = s.pushed.length ∧
      curTail = s.pushed.length % (capacity+1) ∧ nextTail = (s.pushed.length+1) % (capacity+1)
  | .notFull _ curTail nextTail => s.writes.length = s.pushed.length ∧
      curTail = s.pushed.length % (capacity+1) ∧ nextTail = (s.pushed.length+1) % (capacity+1) ∧
      s.pushed.length < freed s+capacity
  | .written value curTail nextTail => s.writes.length = s.pushed.length+1 ∧
      s.writes[s.pushed.length]? = some (curTail,value) ∧
      nextTail = (s.pushed.length+1) % (capacity+1) ∧ s.pushed.length < freed s+capacity

def ConsumerAt (capacity : Nat) (s : State) : Prop := match s.consumer with
  | .idle => True
  | .loadedHead _ curHead => curHead = s.consumed % (capacity+1)
  | .notEmpty _ curHead => curHead = s.consumed % (capacity+1) ∧ s.consumed < s.knownWrites
  | .taken curHead val => curHead = s.consumed % (capacity+1) ∧ s.consumed < s.knownWrites ∧
      s.pushed[s.consumed]? = some (curHead,val)
  | .sizeTail _ t => t = s.seenTail % (capacity+1)
  | .sized n => s.consumed+n ≤ s.seenTail
  | .copying n currentHead dest => currentHead = s.consumed % (capacity+1) ∧
      s.consumed+n ≤ s.seenTail ∧ dest.length < n
  | .built n _ => s.consumed+n ≤ s.seenTail
  | .advancing n cur _ => cur = s.consumed % (capacity+1) ∧ s.consumed+n ≤ s.seenTail
  | .sampling _ _ h => h = s.consumed % (capacity+1)
  | .gathering physInds dest => dest.length < physInds.length ∧
      ∀ slot ∈ physInds, ∃ p, slot = p % (capacity+1) ∧ s.consumed ≤ p ∧ p < s.knownWrites

structure Inv (capacity : Nat) (s : State) : Prop where
  headCount : s.heads.length = s.released.length
  heads : ∀ (i : Nat) h r, s.heads[i]? = some h → s.released[i]? = some r → h.value = r % (capacity+1)
  last : s.released.getLast? = some s.consumed
  sorted : s.released.Pairwise (· ≤ ·)
  tails : ∀ (i : Nat) t, s.tails[i]? = some t → t.value = i % (capacity+1) ∧ t.count = i
  tailCount : s.tails.length = s.pushed.length+1
  headSeen : s.seenHead < s.released.length
  tailSeen : s.seenTail ≤ s.pushed.length
  order : s.consumed ≤ s.seenTail
  room : s.pushed.length ≤ freed s+capacity
  known : s.knownWrites ≤ s.seenTail
  slots : ∀ (i : Nat) w, s.writes[i]? = some w → w.1 = i % (capacity+1)
  published : ∀ (i : Nat) w, s.pushed[i]? = some w → s.writes[i]? = some w
  producer : ProducerAt capacity s
  consumer : ConsumerAt capacity s
  popped : ∀ p v, (p,v) ∈ s.popped → p < s.consumed ∧ s.pushed[p]? = some (p % (capacity+1),v)
  once : (s.popped.map Prod.fst).Pairwise (· < ·)
  gathered : ∀ g ∈ s.gathered, ∃ p, g.slot = p % (capacity+1) ∧ g.consumed ≤ p ∧
    s.pushed[p]? = some (g.slot,g.val)

theorem initInv (capacity : Nat) : Inv capacity init := by
  constructor
  case heads =>
    intro i h r stored released
    simp only [init,List.getElem?_singleton] at stored released
    split at stored <;> try contradiction
    rename_i first
    rw [if_pos first] at released
    cases stored
    cases released
    rfl
  all_goals simp [init,ProducerAt,ConsumerAt,freed,List.getElem?_singleton]

variable {capacity : Nat} {s t : State}

theorem Inv.releasedLater (inv : Inv capacity s) {i j r q : Nat} (first : s.released[i]? = some r)
    (second : s.released[j]? = some q) (order : i ≤ j) : r ≤ q := by
  rcases Nat.lt_or_eq_of_le order with earlier | rfl
  · obtain ⟨insideI,rfl⟩ := List.getElem?_eq_some_iff.mp first
    obtain ⟨insideJ,rfl⟩ := List.getElem?_eq_some_iff.mp second
    exact List.pairwise_iff_getElem.mp inv.sorted i j insideI insideJ earlier
  · exact Nat.le_of_eq (Option.some.inj (first.symm.trans second))

theorem Inv.releasedMost (inv : Inv capacity s) {i r : Nat} (found : s.released[i]? = some r) :
    r ≤ s.consumed := by
  have last := inv.last
  have below := AppendLog.below found
  rw [List.getLast?_eq_getElem?] at last
  exact inv.releasedLater found last (by omega)

theorem Inv.freedIs (inv : Inv capacity s) : s.released[s.seenHead]? = some (freed s) := by
  have seen := inv.headSeen
  simp [freed,List.getD,seen]

theorem Inv.writesRoom (inv : Inv capacity s) : s.writes.length ≤ s.consumed+capacity := by
  have at' := inv.producer
  have room := inv.room
  have most := inv.releasedMost inv.freedIs
  unfold ProducerAt at at'
  split at at' <;> omega

theorem Inv.ownHead (inv : Inv capacity s) {own : Store} (last : s.heads.getLast? = some own) :
    own.value = s.consumed % (capacity+1) := by
  have released := inv.last
  rw [List.getLast?_eq_getElem?] at last released
  rw [inv.headCount] at last
  exact inv.heads _ _ _ last released

theorem Inv.ownTail (inv : Inv capacity s) {own : Store} (last : s.tails.getLast? = some own) :
    own.value = s.pushed.length % (capacity+1) := by
  rw [List.getLast?_eq_getElem?,inv.tailCount] at last
  exact (inv.tails _ _ last).1

theorem Inv.written (inv : Inv capacity s) {p : Nat} (published : p < s.pushed.length) :
    ∃ v, s.pushed[p]? = some (p % (capacity+1),v) ∧ s.writes[p]? = some (p % (capacity+1),v) := by
  obtain ⟨w,found⟩ : ∃ w, s.pushed[p]? = some w := ⟨_,List.getElem?_eq_getElem published⟩
  have here := inv.published p w found
  have slot := inv.slots p w here
  obtain ⟨at',v⟩ := w
  cases slot
  exact ⟨v,found,here⟩

theorem Inv.noLater (inv : Inv capacity s) {p j : Nat} {w : Nat × CInt} (live : s.consumed ≤ p)
    (found : s.writes[j]? = some w) (here : w.1 = p % (capacity+1)) : j ≤ p := by
  have room := inv.writesRoom
  have below := AppendLog.below found
  have slot := inv.slots j w found
  by_contra later
  have same : p % (capacity+1) = j % (capacity+1) := here.symm.trans slot
  have := CyclicIndex.sameSlot same (by omega) (by omega)
  omega

theorem Inv.reads (inv : Inv capacity s) {p : Nat} {seen : Option Nat} {val : CInt}
    (live : s.consumed ≤ p) (brought : p < s.knownWrites)
    (read : visible s.writes s.knownWrites (p % (capacity+1)) seen = some val) :
    seen = some p ∧ s.pushed[p]? = some (p % (capacity+1),val) := by
  have known := inv.known
  have published := inv.tailSeen
  obtain ⟨v,found,written⟩ := inv.written (show p < s.pushed.length by omega)
  obtain ⟨j,x,rfl,notOlder,stored,atSlot,same⟩ := visibleAt read written rfl brought
  have exactly := Nat.le_antisymm (inv.noLater live stored atSlot) notOlder
  subst exactly
  cases Option.some.inj (stored.symm.trans written)
  cases same
  exact ⟨rfl,found⟩

theorem pushKeeps {value : CInt} (inv : Inv capacity s)
    (done : Produced capacity s (.push value) t) : Inv capacity t := by
  have producer := inv.producer
  cases done with | @begins _ own pc last =>
  simp only [ProducerAt,pc] at producer
  have tail := inv.ownTail last
  have next : (own.value+1) % (capacity+1) = (s.pushed.length+1) % (capacity+1) := by
    rw [tail,Nat.mod_add_mod]
  exact { inv with producer := ⟨producer,tail,next⟩ }

theorem Inv.headAt (inv : Inv capacity s) {i : Nat} (stored : i < s.heads.length)
    (notOlder : s.seenHead ≤ i) : ∃ r, s.released[i]? = some r ∧ freed s ≤ r ∧ r ≤ s.consumed ∧
      ∀ head, s.heads[i]? = some head → head.value = r % (capacity+1) := by
  rw [inv.headCount] at stored
  have there := List.getElem?_eq_getElem stored
  exact ⟨_,there,inv.releasedLater inv.freedIs there notOlder,inv.releasedMost there,
    fun head found => inv.heads i head _ found there⟩

theorem loadHeadKeeps {i : Nat} (inv : Inv capacity s)
    (done : Produced capacity s (.loadHead i) t) : Inv capacity t := by
  have producer := inv.producer
  have room := inv.room
  cases done with | @loadsHead value curTail nextTail _ head pc stored notOlder =>
  simp only [ProducerAt,pc] at producer
  obtain ⟨r,there,more,_,same⟩ := inv.headAt (AppendLog.below stored) notOlder
  have known : s.released.getD i 0 = r := by simp [List.getD,there]
  refine { inv with headSeen := AppendLog.below there, room := ?_, producer := ?_ }
  · simp only [freed,known]
    omega
  · simp only [ProducerAt]
    by_cases full : nextTail = head.value
    · rw [if_pos full]
      exact producer.1
    · rw [if_neg full]
      refine ⟨producer.1,producer.2.1,producer.2.2,?_⟩
      simp only [freed,known]
      by_contra lap
      have all : s.pushed.length+1 = r+(capacity+1) := by omega
      apply full
      rw [producer.2.2,all,Nat.add_mod_right,same head stored]

theorem writeSlotKeeps (inv : Inv capacity s)
    (done : Produced capacity s .writeSlot t) : Inv capacity t := by
  have producer := inv.producer
  cases done with | writesSlot pc =>
  simp only [ProducerAt,pc] at producer
  obtain ⟨count,slot,next,room⟩ := producer
  refine { inv with slots := ?_, published := ?_, producer := ?_ }
  · intro i w found
    rcases AppendLog.entry found with old | ⟨rfl,rfl⟩
    · exact inv.slots i w old
    · rw [count]
      exact slot
  · exact fun i w found => AppendLog.kept (inv.published i w found)
  · refine ⟨by simp [count],?_,next,room⟩
    rw [← count]
    exact AppendLog.latest

theorem storeTailKeeps (inv : Inv capacity s)
    (done : Produced capacity s .storeTail t) : Inv capacity t := by
  have producer := inv.producer
  have tailSeen := inv.tailSeen
  cases done with | @storesTail value curTail nextTail pc =>
  simp only [ProducerAt,pc] at producer
  obtain ⟨count,written,next,room⟩ := producer
  have grown : (s.pushed ++ [(curTail,value)]).length = s.pushed.length+1 := by simp
  refine { inv with
    tails := ?_
    tailCount := by simp [inv.tailCount]
    tailSeen := by simp only [grown]; omega
    room := by simp only [freed,grown] at room ⊢; omega
    published := ?_
    producer := by simp only [ProducerAt,grown,count]
    consumer := ?_
    popped := fun p v mem => ⟨(inv.popped p v mem).1,AppendLog.kept (inv.popped p v mem).2⟩
    gathered := ?_ }
  · intro i u found
    rcases AppendLog.entry found with old | ⟨rfl,rfl⟩
    · exact inv.tails i u old
    · rw [inv.tailCount]
      exact ⟨next,count⟩
  · intro i w found
    rcases AppendLog.entry found with old | ⟨rfl,rfl⟩
    · exact inv.published i w old
    · exact written
  · have consumer := inv.consumer
    unfold ConsumerAt at consumer ⊢
    dsimp only
    split at consumer <;> try exact consumer
    exact ⟨consumer.1,consumer.2.1,AppendLog.kept consumer.2.2⟩
  · intro g mem
    obtain ⟨p,slot,live,found⟩ := inv.gathered g mem
    exact ⟨p,slot,live,AppendLog.kept found⟩

theorem peekHeadKeeps {i : Nat} (inv : Inv capacity s)
    (done : Produced capacity s (.peekHead i) t) : Inv capacity t := by
  have producer := inv.producer
  have room := inv.room
  cases done with | peeksHead pc notOlder inside =>
  simp only [ProducerAt,pc] at producer
  obtain ⟨r,there,more,_,_⟩ := inv.headAt inside notOlder
  have known : s.released.getD i 0 = r := by simp [List.getD,there]
  refine { inv with headSeen := AppendLog.below there, room := ?_, producer := ?_ }
  · simp only [freed,known]
    omega
  · simp only [ProducerAt,pc]
    exact producer

theorem produceKeeps {a} (inv : Inv capacity s) (done : Produced capacity s a t) :
    Inv capacity t := by
  cases a with
  | push value => exact pushKeeps inv done
  | loadHead i => exact loadHeadKeeps inv done
  | writeSlot => exact writeSlotKeeps inv done
  | storeTail => exact storeTailKeeps inv done
  | peekHead i => exact peekHeadKeeps inv done
  | _ => cases done

theorem releaseKeeps {cur n : Nat} {popped : List (Nat × CInt)} (inv : Inv capacity s)
    (head : cur = s.consumed % (capacity+1)) (enough : s.consumed+n ≤ s.seenTail)
    (values : ∀ p v, (p,v) ∈ popped → p < s.consumed+n ∧ s.pushed[p]? = some (p % (capacity+1),v))
    (once : (popped.map Prod.fst).Pairwise (· < ·)) :
    Inv capacity (release capacity { s with popped := popped } cur n) := by
  have seen := inv.headSeen
  have same : freed (release capacity { s with popped := popped } cur n) = freed s := by
    simp [freed,release,List.getD,List.getElem?_append_left seen]
  refine { inv with
    headCount := by simp [release,inv.headCount]
    heads := ?_
    last := by simp [release]
    sorted := ?_
    headSeen := by simp only [release,List.length_append]; omega
    order := enough
    room := by rw [same]; exact inv.room
    producer := ?_
    consumer := trivial
    popped := values
    once := once }
  · intro i h r stored released
    rcases AppendLog.entry stored with old | ⟨rfl,rfl⟩
    · have inside := AppendLog.below old
      rw [inv.headCount] at inside
      simp only [release,List.getElem?_append_left inside] at released
      exact inv.heads i h r old released
    · rw [inv.headCount] at released
      have latest : r = s.consumed+n := Option.some.inj (released.symm.trans AppendLog.latest)
      rw [latest,head]
      exact Nat.mod_add_mod _ _ _
  · refine List.pairwise_append.mpr ⟨inv.sorted,List.pairwise_singleton _ _,?_⟩
    intro r mem q last
    obtain ⟨i,found⟩ := List.mem_iff_getElem?.mp mem
    rw [List.mem_singleton.mp last]
    exact (inv.releasedMost found).trans (Nat.le_add_right _ _)
  · have producer := inv.producer
    unfold ProducerAt at producer ⊢
    rw [same]
    exact producer

theorem Inv.poppedBelow (inv : Inv capacity s) (n p : Nat) (v : CInt) (mem : (p,v) ∈ s.popped) :
    p < s.consumed+n ∧ s.pushed[p]? = some (p % (capacity+1),v) :=
  ⟨Nat.lt_add_right n (inv.popped p v mem).1,(inv.popped p v mem).2⟩

theorem Inv.tailAt (inv : Inv capacity s) {i : Nat} {tail : Store} (found : s.tails[i]? = some tail) :
    tail.value = i % (capacity+1) ∧ tail.count = i ∧ i ≤ s.pushed.length := by
  have below := AppendLog.below found
  rw [inv.tailCount] at below
  obtain ⟨value,carried⟩ := inv.tails i tail found
  exact ⟨value,carried,by omega⟩

theorem beginPopKeeps {out : Bool} (inv : Inv capacity s)
    (done : Popped capacity s (.pop out) t) : Inv capacity t := by
  cases done with | begins pc last =>
  exact { inv with consumer := inv.ownHead last }

theorem loadTailKeeps {i : Nat} (inv : Inv capacity s)
    (done : Popped capacity s (.loadTail i) t) : Inv capacity t := by
  have consumer := inv.consumer
  cases done with | @loadsTail out curHead _ tail pc stored notOlder =>
  simp only [ConsumerAt,pc] at consumer
  obtain ⟨value,carried,most⟩ := inv.tailAt stored
  have order := inv.order
  have known := inv.known
  refine { inv with
    tailSeen := most
    order := order.trans notOlder
    known := by simp only [carried]; omega
    consumer := ?_ }
  simp only [ConsumerAt]
  by_cases empty : curHead = tail.value
  · rw [if_pos empty]
    trivial
  · rw [if_neg empty]
    have apart : s.consumed ≠ i := fun same => empty (by rw [consumer,value,same])
    exact ⟨consumer,by simp only [carried]; omega⟩

theorem readSlotKeeps {seen : Option Nat} (inv : Inv capacity s)
    (done : Popped capacity s (.readSlot seen) t) : Inv capacity t := by
  have consumer := inv.consumer
  cases done with | readsSlot pc read =>
  simp only [ConsumerAt,pc] at consumer
  obtain ⟨rfl,brought⟩ := consumer
  exact { inv with consumer := ⟨rfl,brought,(inv.reads (Nat.le_refl _) brought read).2⟩ }

theorem storeHeadKeeps (inv : Inv capacity s) (done : Popped capacity s .storeHead t) :
    Inv capacity t := by
  have consumer := inv.consumer
  have known := inv.known
  cases done with
  | storesHead pc =>
    simp only [ConsumerAt,pc] at consumer
    obtain ⟨rfl,brought,found⟩ := consumer
    refine releaseKeeps inv rfl (by omega) (fun p v mem => ?_) ?_
    · rcases List.mem_append.mp mem with old | new
      · exact ⟨Nat.lt_succ_of_lt (inv.popped p v old).1,(inv.popped p v old).2⟩
      · cases List.mem_singleton.mp new
        exact ⟨Nat.lt_succ_self _,found⟩
    · rw [List.map_append]
      refine List.pairwise_append.mpr ⟨inv.once,List.pairwise_singleton _ _,?_⟩
      intro p mem q last
      obtain ⟨⟨p,v⟩,old,rfl⟩ := List.mem_map.mp mem
      rw [List.mem_singleton.mp last]
      exact (inv.popped p v old).1
  | discards pc =>
    simp only [ConsumerAt,pc] at consumer
    exact releaseKeeps inv consumer.1 (by omega) (inv.poppedBelow 1) inv.once

theorem peekTailKeeps {i : Nat} (inv : Inv capacity s)
    (done : Popped capacity s (.peekTail i) t) : Inv capacity t := by
  cases done with | peeksTail pc notOlder inside =>
  have count := inv.tailCount
  have most : i ≤ s.pushed.length := by omega
  exact { inv with
    tailSeen := most
    order := inv.order.trans notOlder
    known := inv.known.trans notOlder
    consumer := by simp only [ConsumerAt,pc] }

theorem popKeeps {a} (inv : Inv capacity s) (done : Popped capacity s a t) :
    Inv capacity t := by
  cases a with
  | pop out => exact beginPopKeeps inv done
  | loadTail i => exact loadTailKeeps inv done
  | readSlot seen => exact readSlotKeeps inv done
  | storeHead => exact storeHeadKeeps inv done
  | peekTail i => exact peekTailKeeps inv done
  | _ => cases done

theorem sizeCounters {i j : Nat} (order : i ≤ j) (room : j ≤ i+capacity) :
    ExactRing.sizeFrom capacity (j % (capacity+1)) (i % (capacity+1)) = j-i := by
  rw [ExactRing.sizeFromGap (Nat.mod_lt _ (Nat.succ_pos _))]
  exact (CyclicIndex.gapCounters (by omega)).mpr (by rw [Nat.add_sub_of_le order])

theorem Inv.sizeSeen (inv : Inv capacity s) {i t h : Nat} (order : s.consumed ≤ i)
    (published : i ≤ s.pushed.length) (tail : t = i % (capacity+1))
    (head : h = s.consumed % (capacity+1)) :
    ExactRing.sizeFrom capacity t h = i-s.consumed := by
  have room := inv.room
  have most := inv.releasedMost inv.freedIs
  rw [tail,head]
  exact sizeCounters order (by omega)

theorem beginViewKeeps {n i : Nat} (inv : Inv capacity s)
    (done : Viewed capacity s (.popView n i) t) : Inv capacity t := by
  have order := inv.order
  cases done with | loadsTail pc stored notOlder =>
  obtain ⟨value,carried,most⟩ := inv.tailAt stored
  exact { inv with
    tailSeen := most
    order := order.trans notOlder
    known := inv.known.trans notOlder
    consumer := value }

theorem sizeHeadKeeps (inv : Inv capacity s) (done : Viewed capacity s .sizeHead t) :
    Inv capacity t := by
  have consumer := inv.consumer
  have order := inv.order
  cases done with | @counts n _ _ pc last =>
  simp only [ConsumerAt,pc] at consumer
  have size := inv.sizeSeen order inv.tailSeen consumer (inv.ownHead last)
  refine { inv with consumer := ?_ }
  simp only [ConsumerAt,size]
  by_cases short : s.seenTail-s.consumed < n
  · rw [if_pos short]
    trivial
  · rw [if_neg short]
    dsimp only
    omega

theorem currentHeadKeeps (inv : Inv capacity s) (done : Viewed capacity s .currentHead t) :
    Inv capacity t := by
  have consumer := inv.consumer
  cases done with | @branches n own pc last =>
  simp only [ConsumerAt,pc] at consumer
  have head := inv.ownHead last
  have below := Nat.mod_lt s.consumed (show 0 < capacity+1 by omega)
  refine { inv with consumer := ?_ }
  simp only [ConsumerAt]
  by_cases fits : own.value+n ≤ capacity+1
  · rw [if_pos fits]
    exact consumer
  · rw [if_neg fits]
    refine ⟨head,consumer,?_⟩
    simp only [List.length_nil]
    omega

theorem copyEntryKeeps {seen : Option Nat} (inv : Inv capacity s)
    (done : Viewed capacity s (.copyEntry seen) t) : Inv capacity t := by
  have consumer := inv.consumer
  cases done with | @copies n _ dest _ _ pc read =>
  simp only [ConsumerAt,pc] at consumer
  refine { inv with consumer := ?_ }
  simp only [ConsumerAt]
  by_cases full : dest.length+1 = n
  · rw [if_pos full]
    exact consumer.2.1
  · rw [if_neg full]
    refine ⟨consumer.1,consumer.2.1,?_⟩
    have part := consumer.2.2
    simp only [List.length_append,List.length_singleton]
    omega

theorem loadOwnKeeps (inv : Inv capacity s) (done : Viewed capacity s .loadOwn t) :
    Inv capacity t := by
  have consumer := inv.consumer
  cases done with | loadsOwn pc last =>
  simp only [ConsumerAt,pc] at consumer
  exact { inv with consumer := ⟨inv.ownHead last,consumer⟩ }

theorem advanceHeadKeeps (inv : Inv capacity s) (done : Viewed capacity s .advanceHead t) :
    Inv capacity t := by
  have consumer := inv.consumer
  cases done with | @advances n _ _ pc =>
  simp only [ConsumerAt,pc] at consumer
  exact releaseKeeps inv consumer.1 consumer.2 (inv.poppedBelow n) inv.once

theorem viewKeeps {a} (inv : Inv capacity s) (done : Viewed capacity s a t) :
    Inv capacity t := by
  cases a with
  | popView n i => exact beginViewKeeps inv done
  | sizeHead => exact sizeHeadKeeps inv done
  | currentHead => exact currentHeadKeeps inv done
  | copyEntry seen => exact copyEntryKeeps inv done
  | loadOwn => exact loadOwnKeeps inv done
  | advanceHead => exact advanceHeadKeeps inv done
  | _ => cases done

theorem Inv.sampledAt (inv : Inv capacity s) {i t h slot : Nat} {std : StdVector} {gen : Generator}
    {batchSize : Nat} {physInds : List Nat} (order : s.consumed ≤ i) (published : i ≤ s.pushed.length)
    (tail : t = i % (capacity+1)) (head : h = s.consumed % (capacity+1))
    (drawn : ExactRing.sampleIndices ⟨capacity,[],h,t⟩ std gen batchSize = .ok physInds)
    (mem : slot ∈ physInds) : ∃ p, slot = p % (capacity+1) ∧ s.consumed ≤ p ∧ p < i := by
  have size : ExactRing.size ⟨capacity,[],h,t⟩ = i-s.consumed :=
    inv.sizeSeen order published tail head
  unfold ExactRing.sampleIndices at drawn
  split at drawn <;> try contradiction
  rename_i some
  split at drawn <;> try contradiction
  cases Except.ok.inj drawn
  obtain ⟨k,_,rfl⟩ := List.mem_map.mp mem
  have inside := gen.inRange (ExactRing.size ⟨capacity,[],h,t⟩-1) k
  refine ⟨s.consumed+gen.draw (ExactRing.size ⟨capacity,[],h,t⟩-1) k,?_,Nat.le_add_right _ _,by omega⟩
  rw [head]
  exact Nat.mod_add_mod _ _ _

theorem beginSampleKeeps {gen : Generator} {batchSize : Nat} (inv : Inv capacity s)
    (done : Sampled capacity s (.sampleIndices gen batchSize) t) : Inv capacity t := by
  cases done with | begins pc last =>
  exact { inv with consumer := inv.ownHead last }

theorem sampleTailKeeps {std : StdVector} {i : Nat} (inv : Inv capacity s)
    (done : Sampled capacity s (.sampleTail std i) t) : Inv capacity t := by
  have consumer := inv.consumer
  cases done with | @loadsTail gen batchSize h _ _ tail pc stored notOlder =>
  simp only [ConsumerAt,pc] at consumer
  obtain ⟨value,carried,most⟩ := inv.tailAt stored
  have order := inv.order.trans notOlder
  have known := inv.known
  refine { inv with
    tailSeen := most
    order := order
    known := by simp only [carried]; omega
    consumer := ?_ }
  simp only [ConsumerAt]
  cases drawn : ExactRing.sampleIndices ⟨capacity,[],h,tail.value⟩ std gen batchSize with
  | error e => trivial
  | ok physInds =>
    cases physInds with
    | nil => trivial
    | cons slot rest =>
      refine ⟨Nat.succ_pos _,fun slot mem => ?_⟩
      obtain ⟨p,same,live,below⟩ := inv.sampledAt order most value consumer drawn mem
      exact ⟨p,same,live,by simp only [carried]; omega⟩

theorem gatherKeeps {seen : Option Nat} (inv : Inv capacity s)
    (done : Sampled capacity s (.gather seen) t) : Inv capacity t := by
  have consumer := inv.consumer
  cases done with | @gathers physInds dest slot _ _ pc here read =>
  simp only [ConsumerAt,pc] at consumer
  obtain ⟨part,brought⟩ := consumer
  obtain ⟨p,rfl,live,below⟩ := brought slot (List.mem_of_getElem? here)
  have entry := (inv.reads live below read).2
  refine { inv with consumer := ?_, gathered := ?_ }
  · simp only [ConsumerAt]
    by_cases full : dest.length+1 = physInds.length
    · rw [if_pos full]
      trivial
    · rw [if_neg full]
      refine ⟨?_,brought⟩
      simp only [List.length_append,List.length_singleton]
      omega
  · intro g mem
    rcases List.mem_append.mp mem with old | new
    · exact inv.gathered g old
    · cases List.mem_singleton.mp new
      exact ⟨p,rfl,live,entry⟩

theorem sampleKeeps {a} (inv : Inv capacity s) (done : Sampled capacity s a t) :
    Inv capacity t := by
  cases a with
  | sampleIndices gen batchSize => exact beginSampleKeeps inv done
  | sampleTail std i => exact sampleTailKeeps inv done
  | gather seen => exact gatherKeeps inv done
  | _ => cases done

theorem stepKeeps {a} (inv : Inv capacity s) (moved : step capacity s a = some t) : Inv capacity t := by
  rcases stepCases moved with first | second | third | last
  · exact produceKeeps inv first
  · exact popKeeps inv second
  · exact viewKeeps inv third
  · exact sampleKeeps inv last

theorem runInv {acts} (run : exec (step capacity) init acts = some s) : Inv capacity s :=
  preserved (fun _ _ _ => stepKeeps) run (initInv capacity)

theorem weakReadsExact (capacity : Nat) (acts : List Action) (s : State)
    (run : exec (step capacity) init acts = some s) :
    (∀ p v, (p,v) ∈ s.popped → s.pushed[p]? = some (p % (capacity+1),v)) ∧
    (s.popped.map Prod.fst).Pairwise (· < ·) ∧
    (∀ g ∈ s.gathered, ∃ p, g.slot = p % (capacity+1) ∧ g.consumed ≤ p ∧
      s.pushed[p]? = some (g.slot,g.val)) ∧
    (∀ value curTail nextTail p, s.producer = .notFull value curTail nextTail → s.consumed ≤ p →
      p < s.pushed.length → curTail ≠ p % (capacity+1)) ∧
    s.consumed ≤ s.pushed.length ∧ s.pushed.length ≤ s.consumed+capacity := by
  have inv := runInv run
  have most := inv.releasedMost inv.freedIs
  have room := inv.room
  have order := inv.order.trans inv.tailSeen
  refine ⟨fun p v mem => (inv.popped p v mem).2,inv.once,inv.gathered,?_,order,by omega⟩
  intro value curTail nextTail p pc live published same
  have producer := inv.producer
  simp only [ProducerAt,pc] at producer
  rw [producer.2.1] at same
  have := CyclicIndex.sameSlot same (by omega) (by omega)
  omega

theorem weakReadsExactAtOne : ∃ s,
    exec (step 1) init [.push 5,.loadHead 0,.writeSlot,.storeTail,.peekTail 1,
      .sampleIndices (.always 0) 1,.sampleTail StdVector.small 1,.gather (some 0),.pop true,.loadTail 1,
      .readSlot (some 0),.storeHead] = some s ∧
    (0,5) ∈ s.popped ∧ s.pushed[0]? = some (0,5) := by
  have exactly := weakReadsExact 1 [.push 5,.loadHead 0,.writeSlot,.storeTail,.peekTail 1,
    .sampleIndices (.always 0) 1,.sampleTail StdVector.small 1,.gather (some 0),.pop true,.loadTail 1,
    .readSlot (some 0),.storeHead] _ rfl
  exact ⟨_,rfl,by decide,exactly.1 0 5 (by decide)⟩

end FastReplay.Weak
