import FastReplay.WeakReads

/-! What size() and empty() promise, under stale loads, to the thread that calls them. What
it sees of the index of the other thread may be old, but that index only ever advances. -/
namespace FastReplay.Weak
open GuardedRun
variable {capacity : Nat} {s t u : State}

def producerLoads (s : State) (i : Nat) : Option (Nat × Nat) := do
  let tail ← s.tails.getLast?
  let head ← s.heads[i]?
  return (tail.value,head.value)

def consumerLoads (s : State) (i : Nat) : Option (Nat × Nat) := do
  let tail ← s.tails[i]?
  let head ← s.heads.getLast?
  return (tail.value,head.value)

structure Later (s t : State) : Prop where
  seenHead : s.seenHead ≤ t.seenHead
  seenTail : s.seenTail ≤ t.seenTail
  released : s.released <+: t.released

theorem Later.trans (first : Later s t) (second : Later t u) : Later s u :=
  ⟨first.seenHead.trans second.seenHead,first.seenTail.trans second.seenTail,
    first.released.trans second.released⟩

theorem Later.unseen (head : t.seenHead = s.seenHead) (tail : t.seenTail = s.seenTail)
    (released : t.released = s.released) : Later s t :=
  ⟨Nat.le_of_eq head.symm,Nat.le_of_eq tail.symm,by rw [released]⟩

theorem Later.seesTail {i : Nat} (head : t.seenHead = s.seenHead) (tail : t.seenTail = i)
    (released : t.released = s.released) (notOlder : s.seenTail ≤ i) : Later s t :=
  ⟨Nat.le_of_eq head.symm,notOlder.trans (Nat.le_of_eq tail.symm),by rw [released]⟩

theorem Later.releases {cur n : Nat} {popped : List (Nat × CInt)} :
    Later s (release capacity { s with popped := popped } cur n) :=
  ⟨Nat.le_refl _,Nat.le_refl _,List.prefix_append _ _⟩

theorem stepLater {a} (moved : step capacity s a = some t) : Later s t := by
  rcases stepCases moved with first | second | third | last
  · cases first with
    | loadsHead _ _ notOlder => exact ⟨notOlder,Nat.le_refl _,List.prefix_refl _⟩
    | peeksHead _ notOlder _ => exact ⟨notOlder,Nat.le_refl _,List.prefix_refl _⟩
    | _ => exact .unseen rfl rfl rfl
  · cases second with
    | loadsTail _ _ notOlder => exact .seesTail rfl rfl rfl notOlder
    | peeksTail _ notOlder _ => exact .seesTail rfl rfl rfl notOlder
    | storesHead _ => exact .releases
    | discards _ => exact .releases
    | _ => exact .unseen rfl rfl rfl
  · cases third with
    | loadsTail _ _ notOlder => exact .seesTail rfl rfl rfl notOlder
    | advances _ => exact .releases
    | _ => exact .unseen rfl rfl rfl
  · cases last with
    | loadsTail _ _ notOlder => exact .seesTail rfl rfl rfl notOlder
    | _ => exact .unseen rfl rfl rfl

theorem runLater {acts} (run : exec (step capacity) s acts = some t) : Later s t :=
  preserved (I := Later s) (fun _ _ _ before moved => before.trans (stepLater moved)) run
    (.unseen rfl rfl rfl)

theorem Inv.freedLater (before : Inv capacity s) (after : Inv capacity t) (later : Later s t) :
    freed s ≤ freed t := by
  obtain ⟨rest,same⟩ := later.released
  have kept : t.released[s.seenHead]? = some (freed s) := by
    rw [← same,List.getElem?_append_left before.headSeen]
    exact before.freedIs
  exact after.releasedLater kept after.freedIs later.seenHead

/-! From here on: push is not refused until this many entries have been pushed, and no call
of the consumer finds too few of them until it would take more than this many. -/

def PushesUpTo (capacity : Nat) (t : State) (most : Nat) : Prop :=
  ∀ more u, exec (step capacity) t more = some u → u.pushed.length < most →
    ∀ value curTail nextTail i v, u.producer = .loadedTail value curTail nextTail →
      step capacity u (.loadHead i) = some v → v.producer = .notFull value curTail nextTail

def TakesUpTo (capacity : Nat) (t : State) (most : Nat) : Prop :=
  ∀ more u, exec (step capacity) t more = some u →
    (∀ out curHead i v, u.consumed < most → u.consumer = .loadedHead out curHead →
      step capacity u (.loadTail i) = some v → v.consumer = .notEmpty out curHead) ∧
    (∀ n tail v, u.consumed+n ≤ most → u.consumer = .sizeTail n tail →
      step capacity u .sizeHead = some v → v.consumer = .sized n) ∧
    ∀ gen batchSize head std i v, u.consumed < most → 0 < batchSize → batchSize ≤ std.maxWords →
      u.consumer = .sampling gen batchSize head → step capacity u (.sampleTail std i) = some v →
      ∃ physInds, physInds.length = batchSize ∧ v.consumer = .gathering physInds []

theorem Inv.pushRoom (inv : Inv capacity s) {value : CInt} {curTail nextTail i : Nat}
    (pc : s.producer = .loadedTail value curTail nextTail) (few : s.pushed.length < freed s+capacity)
    (moved : step capacity s (.loadHead i) = some t) :
    t.producer = .notFull value curTail nextTail := by
  have producer := inv.producer
  have order := inv.order.trans inv.tailSeen
  simp only [ProducerAt,pc] at producer
  rcases stepCases moved with done | other | other | other <;> try cases other
  cases done with
  | @loadsHead _ _ _ _ head here stored notOlder =>
    cases pc.symm.trans here
    obtain ⟨r,_,more,most,same⟩ := inv.headAt (AppendLog.below stored) notOlder
    refine if_neg fun full => ?_
    rw [producer.2.2,same head stored] at full
    have := CyclicIndex.sameSlot full (by omega) (by omega)
    omega

theorem Inv.popFinds (inv : Inv capacity s) {out : Bool} {curHead i : Nat}
    (pc : s.consumer = .loadedHead out curHead) (some' : s.consumed < s.seenTail)
    (moved : step capacity s (.loadTail i) = some t) : t.consumer = .notEmpty out curHead := by
  have consumer := inv.consumer
  have room := inv.room
  have most := inv.releasedMost inv.freedIs
  simp only [ConsumerAt,pc] at consumer
  rcases stepCases moved with other | done | other | other <;> try cases other
  cases done with
  | loadsTail here stored notOlder =>
    cases pc.symm.trans here
    obtain ⟨value,_,published⟩ := inv.tailAt stored
    refine if_neg fun empty => ?_
    rw [consumer,value] at empty
    have := CyclicIndex.sameSlot empty (by omega) (by omega)
    omega

theorem Inv.viewFinds (inv : Inv capacity s) {n tail : Nat} (pc : s.consumer = .sizeTail n tail)
    (enough : s.consumed+n ≤ s.seenTail) (moved : step capacity s .sizeHead = some t) :
    t.consumer = .sized n := by
  have consumer := inv.consumer
  simp only [ConsumerAt,pc] at consumer
  rcases stepCases moved with other | other | done | other <;> try cases other
  cases done with
  | counts here last =>
    cases pc.symm.trans here
    refine if_neg fun short => ?_
    rw [inv.sizeSeen inv.order inv.tailSeen consumer (inv.ownHead last)] at short
    omega

theorem Inv.sampleFinds (inv : Inv capacity s) {gen : Generator} {batchSize head i : Nat}
    {std : StdVector} (pc : s.consumer = .sampling gen batchSize head)
    (some' : s.consumed < s.seenTail) (asked : 0 < batchSize) (fits : batchSize ≤ std.maxWords)
    (moved : step capacity s (.sampleTail std i) = some t) :
    ∃ physInds, physInds.length = batchSize ∧ t.consumer = .gathering physInds [] := by
  have consumer := inv.consumer
  simp only [ConsumerAt,pc] at consumer
  rcases stepCases moved with other | other | other | done <;> try cases other
  cases done with
  | @loadsTail _ _ _ _ _ tail here stored notOlder =>
    cases pc.symm.trans here
    obtain ⟨value,_,published⟩ := inv.tailAt stored
    have size : ExactRing.size ⟨capacity,[],head,tail.value⟩ = i-s.consumed :=
      inv.sizeSeen (inv.order.trans notOlder) published value consumer
    have found : ExactRing.size ⟨capacity,[],head,tail.value⟩ ≠ 0 := by omega
    obtain ⟨more,rfl⟩ := Nat.exists_eq_add_one_of_ne_zero (Nat.ne_of_gt asked)
    have drawn : ∃ slot physInds,
        ExactRing.sampleIndices ⟨capacity,[],head,tail.value⟩ std gen (more+1)
          = .ok (slot::physInds) ∧ (slot::physInds).length = more+1 := by
      rw [ExactRing.sampleIndices,if_neg found,if_neg (Nat.not_lt.mpr fits),
        List.range_succ_eq_map,List.map_cons]
      exact ⟨_,_,rfl,by simp⟩
    obtain ⟨slot,physInds,indices,length⟩ := drawn
    exact ⟨slot::physInds,length,by simp only [indices]⟩

theorem Inv.pushesUpTo (inv : Inv capacity t) : PushesUpTo capacity t (freed t+capacity) := by
  intro more u run few value curTail nextTail i v pc moved
  have kept : Inv capacity u := preserved (fun _ _ _ => stepKeeps) run inv
  have known := inv.freedLater kept (runLater run)
  exact kept.pushRoom pc (by omega) moved

theorem Inv.takesUpTo (inv : Inv capacity t) : TakesUpTo capacity t t.seenTail := by
  intro more u run
  have kept : Inv capacity u := preserved (fun _ _ _ => stepKeeps) run inv
  have seen := (runLater run).seenTail
  exact ⟨fun _ _ _ _ some' pc moved => kept.popFinds pc (by omega) moved,
    fun _ _ _ enough pc moved => kept.viewFinds pc (by omega) moved,
    fun _ _ _ _ _ _ some' asked fits pc moved =>
      kept.sampleFinds pc (by omega) asked fits moved⟩

theorem sizeZero {i j : Nat} (order : i ≤ j) (room : j ≤ i+capacity) :
    i % (capacity+1) = j % (capacity+1) ↔ j-i = 0 := by
  constructor
  · intro same
    have := CyclicIndex.sameSlot same (by omega) (by omega)
    omega
  · intro none
    rw [show j = i by omega]

theorem Inv.producerCounts (inv : Inv capacity s) {i tail head : Nat}
    (moved : step capacity s (.peekHead i) = some t) (loads : producerLoads s i = some (tail,head)) :
    tail = s.pushed.length % (capacity+1) ∧ head = freed t % (capacity+1) ∧
      freed t ≤ s.consumed ∧ s.pushed.length ≤ freed t+capacity := by
  have room := inv.room
  obtain ⟨own,last,loads⟩ := Option.bind_eq_some_iff.mp loads
  obtain ⟨seen,stored,loads⟩ := Option.bind_eq_some_iff.mp loads
  cases Option.some.inj loads
  rcases stepCases moved with done | other | other | other <;> try cases other
  cases done with
  | peeksHead _ notOlder inside =>
    obtain ⟨r,there,more,most,same⟩ := inv.headAt inside notOlder
    have known : s.released.getD i 0 = r := by simp [List.getD,there]
    simp only [freed,known]
    exact ⟨inv.ownTail last,same seen stored,most,by omega⟩

theorem Inv.consumerCounts (inv : Inv capacity s) {i tail head : Nat}
    (moved : step capacity s (.peekTail i) = some t) (loads : consumerLoads s i = some (tail,head)) :
    tail = t.seenTail % (capacity+1) ∧ head = s.consumed % (capacity+1) ∧
      s.consumed ≤ t.seenTail ∧ t.seenTail ≤ s.pushed.length := by
  obtain ⟨seen,stored,loads⟩ := Option.bind_eq_some_iff.mp loads
  obtain ⟨own,last,loads⟩ := Option.bind_eq_some_iff.mp loads
  cases Option.some.inj loads
  rcases stepCases moved with other | done | other | other <;> try cases other
  cases done with
  | peeksTail _ notOlder inside =>
    obtain ⟨value,_,published⟩ := inv.tailAt stored
    exact ⟨value,inv.ownHead last,inv.order.trans notOlder,published⟩

theorem weakSizePromises (capacity : Nat) (acts : List Action) (s : State)
    (run : exec (step capacity) init acts = some s) (i : Nat) (t : State) (tail head : Nat) :
    (step capacity s (.peekHead i) = some t → producerLoads s i = some (tail,head) →
      s.pushed.length-s.consumed ≤ ExactRing.sizeFrom capacity tail head ∧
      ExactRing.sizeFrom capacity tail head ≤ capacity ∧
      (head = tail ↔ ExactRing.sizeFrom capacity tail head = 0) ∧
      PushesUpTo capacity t
        (s.pushed.length+(capacity-ExactRing.sizeFrom capacity tail head))) ∧
    (step capacity s (.peekTail i) = some t → consumerLoads s i = some (tail,head) →
      ExactRing.sizeFrom capacity tail head ≤ s.pushed.length-s.consumed ∧
      (head = tail ↔ ExactRing.sizeFrom capacity tail head = 0) ∧
      TakesUpTo capacity t (s.consumed+ExactRing.sizeFrom capacity tail head)) := by
  have inv := runInv run
  have order := inv.order.trans inv.tailSeen
  have room := inv.room
  have most := inv.releasedMost inv.freedIs
  constructor
  · intro moved loads
    obtain ⟨rfl,rfl,freed',room'⟩ := inv.producerCounts moved loads
    have known : freed t ≤ s.pushed.length := freed'.trans order
    rw [sizeCounters known room']
    have left : s.pushed.length+(capacity-(s.pushed.length-freed t)) = freed t+capacity := by omega
    refine ⟨by omega,by omega,sizeZero known room',?_⟩
    rw [left]
    exact (stepKeeps inv moved).pushesUpTo
  · intro moved loads
    obtain ⟨rfl,rfl,behind,published⟩ := inv.consumerCounts moved loads
    rw [sizeCounters behind (by omega)]
    refine ⟨by omega,sizeZero behind (by omega),?_⟩
    rw [Nat.add_sub_of_le behind]
    exact (stepKeeps inv moved).takesUpTo

theorem weakSizePromisesAtTwo : ∃ s t u,
    exec (step 2) init [.push 5,.loadHead 0,.writeSlot,.storeTail] = some s ∧
    step 2 s (.peekHead 0) = some t ∧ PushesUpTo 2 t 2 ∧
    step 2 s (.peekTail 1) = some u ∧ TakesUpTo 2 u 1 := by
  have promises := weakSizePromises 2 [.push 5,.loadHead 0,.writeSlot,.storeTail] _ rfl
  obtain ⟨_,_,_,pushes⟩ := (promises 0 _ 1 0).1 rfl rfl
  obtain ⟨_,_,takes⟩ := (promises 1 _ 1 0).2 rfl rfl
  exact ⟨_,_,_,rfl,rfl,pushes,rfl,takes⟩

end FastReplay.Weak
