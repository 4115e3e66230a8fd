import FastReplay.Linearization
import FastReplay.Progress

/-! The two threads of the stress test: one pushes 0 to n-1, the other pops n values into
a vector, and both spin while the ring refuses them. -/
namespace FastReplay.Spin
open Progress
open Threads (Thread slots)

structure State where
  now : Threads.State
  i : Nat
  j : Nat
  received : List CInt
  deriving DecidableEq, Repr

def init (capacity : Nat) : State := ⟨Threads.init capacity,0,0,[]⟩

def produce (n : Nat) (s : State) : Option State := match s.now.producer with
  | .idle =>
    if s.i < n then (Threads.step s.now (.push (Int32.ofNat s.i))).map fun now => { s with now := now }
    else none
  | _ => (Threads.produce s.now).map fun now => { s with
      now := now
      i := if Threads.answer s.now .produce = some (.pushed true) then s.i+1 else s.i }

def consume (n : Nat) (s : State) : Option State := match s.now.consumer with
  | .idle =>
    if s.j < n then (Threads.step s.now (.pop (some 0))).map fun now => { s with now := now }
    else none
  | _ => (Threads.consume s.now).map fun now => match Threads.answer s.now .consume with
    | some (.popped true (some val)) =>
      { s with now := now, j := s.j+1, received := s.received ++ [val] }
    | _ => { s with now := now }

def step (n : Nat) (s : State) : Thread → Option State
  | .producer => produce n s
  | .consumer => consume n s

def turn (n : Nat) (s : State) (thread : Thread) : State := (step n s thread).getD s

def Joined (n : Nat) (s : State) : Thread → Prop
  | .producer => s.now.producer = .idle ∧ n ≤ s.i
  | .consumer => s.now.consumer = .idle ∧ n ≤ s.j

def PushAt (n : Nat) (s : State) : Prop := match s.now.producer with
  | .idle => True
  | .loadedTail value _ _ | .notFull value _ _ | .written value _ _ =>
    value = Int32.ofNat s.i ∧ s.i < n

def PopAt (n : Nat) (s : State) : Prop := match s.now.consumer with
  | .idle => True
  | .loadedHead (some _) _ | .notEmpty (some _) _ | .taken _ (some _) => s.j < n
  | _ => False

structure Inv (capacity n : Nat) (s : State) : Prop where
  threads : Threads.Inv capacity s.now
  values : s.now.pushed = (List.range s.i).map Int32.ofNat
  most : s.i ≤ n
  taken : s.j = s.now.consumed
  received : s.received = s.now.pushed.take s.j
  push : PushAt n s
  pop : PopAt n s

theorem initInv (capacity n : Nat) : Inv capacity n (init capacity) where
  threads := Threads.initInv capacity
  values := rfl
  most := Nat.zero_le n
  taken := rfl
  received := rfl
  push := trivial
  pop := trivial

variable {capacity n : Nat} {s : State}

theorem Inv.sent (inv : Inv capacity n s) : s.now.pushed.length = s.i := by
  rw [inv.values,List.length_map,List.length_range]

theorem Inv.order (inv : Inv capacity n s) : s.j ≤ s.i := by
  have order := inv.threads.order
  rw [inv.sent,← inv.taken] at order
  exact order

def pushLeft (s : State) : Nat := match s.now.producer with
  | .idle => 4
  | .loadedTail _ _ _ => 3
  | .notFull _ _ _ => 2
  | .written _ _ _ => 1

def popLeft (s : State) : Nat := match s.now.consumer with
  | .idle => 4
  | .loadedHead _ _ => 3
  | .notEmpty _ _ => 2
  | _ => 1

structure Produces (capacity n : Nat) (s t : State) : Prop where
  inv : Inv capacity n t
  consumer : t.now.consumer = s.now.consumer
  j : t.j = s.j
  gains : t.i = s.i+1 ∨ t.i = s.i ∧ (s.i < s.j+capacity → s.i < n → pushLeft t < pushLeft s)

theorem beginPush {t : State} (inv : Inv capacity n s) (pc : s.now.producer = .idle)
    (moved : produce n s = some t) : Produces capacity n s t := by
  simp only [produce,pc] at moved
  split at moved <;> try contradiction
  rename_i more
  obtain ⟨now,began,rfl⟩ := Option.map_eq_some_iff.mp moved
  have threads := Threads.stepKeeps inv.threads began
  obtain ⟨_,rfl⟩ := Threads.beginPushIs began
  exact ⟨{ inv with threads := threads, push := ⟨rfl,more⟩ },rfl,rfl,
    .inr ⟨rfl,fun _ _ => by simp [pushLeft,pc]⟩⟩

theorem produces {t : State} (inv : Inv capacity n s) (moved : produce n s = some t) :
    Produces capacity n s t := by
  have threads := inv.threads
  have push := inv.push
  cases pc : s.now.producer with
  | idle => exact beginPush inv pc moved
  | loadedTail value curTail nextTail =>
    simp only [PushAt,pc] at push
    simp only [produce,pc] at moved
    obtain ⟨now,went,rfl⟩ := Option.map_eq_some_iff.mp moved
    have kept := Threads.produceKeeps threads went
    by_cases full : nextTail = s.now.ring.head
    · have answer : Threads.answer s.now .produce = some (.pushed false) := by
        simp [Threads.answer,pc,full]
      have most := (Threads.refusedFull threads answer).2
      rw [inv.sent,← inv.taken] at most
      simp only [Threads.produce,pc,if_pos full] at went
      cases Option.some.inj went
      simp only [answer]
      exact ⟨{ inv with threads := kept, push := trivial },rfl,rfl,.inr ⟨rfl,fun room => by omega⟩⟩
    · have silent : Threads.answer s.now .produce = none := by simp [Threads.answer,pc,full]
      simp only [Threads.produce,pc,if_neg full] at went
      cases Option.some.inj went
      simp only [silent]
      exact ⟨{ inv with threads := kept, push := push },rfl,rfl,
        .inr ⟨rfl,fun _ _ => by simp [pushLeft,pc]⟩⟩
  | notFull value curTail nextTail =>
    simp only [PushAt,pc] at push
    simp only [produce,pc] at moved
    obtain ⟨now,went,rfl⟩ := Option.map_eq_some_iff.mp moved
    have kept := Threads.produceKeeps threads went
    have silent : Threads.answer s.now .produce = none := by simp [Threads.answer,pc]
    simp only [Threads.produce,pc] at went
    cases Option.some.inj went
    simp only [silent]
    exact ⟨{ inv with threads := kept, push := push },rfl,rfl,
      .inr ⟨rfl,fun _ _ => by simp [pushLeft,pc]⟩⟩
  | written value curTail nextTail =>
    simp only [PushAt,pc] at push
    obtain ⟨rfl,more⟩ := push
    simp only [produce,pc] at moved
    obtain ⟨now,went,rfl⟩ := Option.map_eq_some_iff.mp moved
    have kept := Threads.produceKeeps threads went
    have answer : Threads.answer s.now .produce = some (.pushed true) := by simp [Threads.answer,pc]
    simp only [Threads.produce,pc] at went
    cases Option.some.inj went
    have below : s.j ≤ s.now.pushed.length := by
      rw [inv.sent]
      exact inv.order
    simp only [answer]
    refine ⟨⟨kept,?_,more,inv.taken,?_,trivial,inv.pop⟩,rfl,rfl,.inl rfl⟩
    · simp [inv.values,List.range_succ]
    · exact inv.received.trans (List.take_append_of_le_length below).symm

structure Consumes (capacity n : Nat) (s t : State) : Prop where
  inv : Inv capacity n t
  producer : t.now.producer = s.now.producer
  i : t.i = s.i
  gains : t.j = s.j+1 ∨ t.j = s.j ∧ (s.j < s.i → popLeft t < popLeft s)

theorem beginPop {t : State} (inv : Inv capacity n s) (pc : s.now.consumer = .idle)
    (moved : consume n s = some t) : Consumes capacity n s t := by
  simp only [consume,pc] at moved
  split at moved <;> try contradiction
  rename_i more
  obtain ⟨now,began,rfl⟩ := Option.map_eq_some_iff.mp moved
  have threads := Threads.stepKeeps inv.threads began
  obtain ⟨_,rfl⟩ := Threads.beginCallIs began
  exact ⟨{ inv with threads := threads, pop := more },rfl,rfl,
    .inr ⟨rfl,fun _ => by simp [popLeft,pc]⟩⟩

theorem consumes {t : State} (inv : Inv capacity n s) (moved : consume n s = some t) :
    Consumes capacity n s t := by
  have threads := inv.threads
  have pop := inv.pop
  have consumer := inv.threads.consumer
  cases pc : s.now.consumer with
  | idle => exact beginPop inv pc moved
  | loadedHead outVal curHead =>
    cases outVal with
    | none => simp [PopAt,pc] at pop
    | some old =>
      simp only [PopAt,pc] at pop
      simp only [consume,pc] at moved
      obtain ⟨now,went,rfl⟩ := Option.map_eq_some_iff.mp moved
      have kept := Threads.consumeKeeps threads went
      by_cases empty : curHead = s.now.ring.tail
      · have answer : Threads.answer s.now .consume = some (.popped false (some old)) := by
          simp [Threads.answer,pc,empty]
        have none := (Threads.refusedEmpty threads answer).2
        rw [inv.sent,← inv.taken] at none
        simp only [Threads.consume,pc,if_pos empty] at went
        cases Option.some.inj went
        simp only [answer]
        exact ⟨{ inv with threads := kept, pop := trivial },rfl,rfl,.inr ⟨rfl,fun some => by omega⟩⟩
      · have silent : Threads.answer s.now .consume = none := by simp [Threads.answer,pc,empty]
        simp only [Threads.consume,pc,if_neg empty] at went
        cases Option.some.inj went
        simp only [silent]
        exact ⟨{ inv with threads := kept, pop := pop },rfl,rfl,
          .inr ⟨rfl,fun _ => by simp [popLeft,pc]⟩⟩
  | notEmpty outVal curHead =>
    cases outVal with
    | none => simp [PopAt,pc] at pop
    | some old =>
      simp only [PopAt,pc] at pop
      simp only [consume,pc] at moved
      obtain ⟨now,went,rfl⟩ := Option.map_eq_some_iff.mp moved
      have kept := Threads.consumeKeeps threads went
      have silent : Threads.answer s.now .consume = none := by simp [Threads.answer,pc]
      simp only [Threads.consume,pc] at went
      obtain ⟨value,_,went⟩ := Option.bind_eq_some_iff.mp went
      cases Option.some.inj went
      simp only [silent]
      exact ⟨{ inv with threads := kept, pop := pop },rfl,rfl,
        .inr ⟨rfl,fun _ => by simp [popLeft,pc]⟩⟩
  | taken curHead out =>
    cases out with
    | none => simp [PopAt,pc] at pop
    | some val =>
      simp only [Threads.ConsumerAt,pc] at consumer
      have front := consumer.2.2.2 val rfl
      rw [← inv.taken] at front
      simp only [consume,pc] at moved
      obtain ⟨now,went,rfl⟩ := Option.map_eq_some_iff.mp moved
      have kept := Threads.consumeKeeps threads went
      have answer : Threads.answer s.now .consume = some (.popped true (some val)) := by
        simp [Threads.answer,pc]
      simp only [Threads.consume,pc] at went
      cases Option.some.inj went
      simp only [answer]
      refine ⟨⟨kept,inv.values,inv.most,congrArg (· + 1) inv.taken,?_,inv.push,trivial⟩,rfl,rfl,.inl rfl⟩
      simp only [Threads.release]
      rw [List.take_add_one,front,inv.received]
      rfl
  | _ => simp [PopAt,pc] at pop

theorem turnKeeps (s : State) (thread : Thread) (inv : Inv capacity n s) :
    Inv capacity n (turn n s thread) := by
  unfold turn
  cases moved : step n s thread with
  | none => exact inv
  | some t =>
    cases thread with
    | producer => exact (produces inv moved).inv
    | consumer => exact (consumes inv moved).inv

def helpful (s : State) : Thread := if s.j < s.i then .consumer else .producer

def left (n : Nat) (s : State) : Nat :=
  8*(2*n-s.i-s.j) + if s.j < s.i then popLeft s else pushLeft s

theorem pushLeftBounds (s : State) : 1 ≤ pushLeft s ∧ pushLeft s ≤ 4 := by
  unfold pushLeft
  split <;> simp

theorem popLeftBounds (s : State) : 1 ≤ popLeft s ∧ popLeft s ≤ 4 := by
  unfold popLeft
  split <;> simp

theorem leftBounds (n : Nat) (s : State) :
    8*(2*n-s.i-s.j) + 1 ≤ left n s ∧ left n s ≤ 8*(2*n-s.i-s.j) + 4 := by
  have push := pushLeftBounds s
  have pop := popLeftBounds s
  unfold left
  split <;> omega

theorem produceMoves (more : s.i < n) : ∃ t, produce n s = some t := by
  cases pc : s.now.producer with
  | idle => simp [produce,pc,more,Threads.step,Threads.beginPush]
  | _ =>
    obtain ⟨t,moved⟩ := Threads.produceMoves (s := s.now) (by simp [pc])
    simp [produce,pc,moved]

theorem consumeMoves (inv : Inv capacity n s) (more : s.j < n) : ∃ t, consume n s = some t := by
  cases pc : s.now.consumer with
  | idle => simp [consume,pc,more,Threads.step,Threads.beginCall]
  | _ =>
    obtain ⟨t,moved⟩ := Threads.consumeMoves inv.threads (by simp [pc])
    simp [consume,pc,moved]

theorem producedLess {t : State} (most : s.i ≤ n) (order : s.j ≤ s.i) (made : Produces capacity n s t)
    (gained : t.i = s.i+1 ∨ t.i = s.i ∧ s.i = s.j ∧ pushLeft t < pushLeft s) : left n t < left n s := by
  have before := leftBounds n s
  have after := leftBounds n t
  have bounds := made.inv.most
  have j := made.j
  cases gained with
  | inl one => omega
  | inr still =>
    obtain ⟨i,same,less⟩ := still
    have empty : ¬ s.j < s.i := by omega
    have empty' : ¬ t.j < t.i := by omega
    simp only [left,if_neg empty,if_neg empty']
    omega

theorem consumedLess {t : State} (most : s.i ≤ n) (made : Consumes capacity n s t)
    (gained : t.j = s.j+1 ∨ t.j = s.j ∧ s.j < s.i ∧ popLeft t < popLeft s) : left n t < left n s := by
  have before := leftBounds n s
  have after := leftBounds n t
  have order := made.inv.order
  have i := made.i
  cases gained with
  | inl one => omega
  | inr still =>
    obtain ⟨j,some,less⟩ := still
    have some' : t.j < t.i := by omega
    simp only [left,if_pos some,if_pos some']
    omega

theorem turnHelps (positive : 1 ≤ capacity) :
    Helps (turn n) (Inv capacity n) (fun s => n ≤ s.j) (left n) helpful where
  keep := turnKeeps
  help := by
    intro s inv unmet
    have order := inv.order
    unfold helpful
    by_cases some : s.j < s.i
    · obtain ⟨t,moved⟩ := consumeMoves inv (Nat.not_le.mp unmet)
      have made := consumes inv moved
      have next : turn n s .consumer = t := by simp only [turn,step,moved,Option.getD_some]
      rw [if_pos some,next]
      exact consumedLess inv.most made (made.gains.imp id fun still => ⟨still.1,some,still.2 some⟩)
    · have empty : s.i = s.j := by omega
      have more : s.i < n := by omega
      obtain ⟨t,moved⟩ := produceMoves more
      have made := produces inv moved
      have next : turn n s .producer = t := by simp only [turn,step,moved,Option.getD_some]
      rw [if_neg some,next]
      exact producedLess inv.most order made
        (made.gains.imp id fun still => ⟨still.1,empty,still.2 (by omega) more⟩)
  harm := by
    intro s thread inv unmet
    have order := inv.order
    unfold turn
    cases moved : step n s thread with
    | none => exact .inr ⟨rfl,rfl⟩
    | some t =>
      rw [Option.getD_some]
      cases thread with
      | producer =>
        have made := produces inv moved
        have j := made.j
        cases made.gains with
        | inl one => exact .inl (producedLess inv.most order made (.inl one))
        | inr still =>
          by_cases some : s.j < s.i
          · have some' : t.j < t.i := by omega
            have same : popLeft t = popLeft s := by simp only [popLeft,made.consumer]
            exact .inr ⟨by simp only [left,if_pos some,still.1,j,same],
              by simp only [helpful,if_pos some,if_pos some']⟩
          · have empty : s.i = s.j := by omega
            exact .inl (producedLess inv.most order made
              (.inr ⟨still.1,empty,still.2 (by omega) (by omega)⟩))
      | consumer =>
        have made := consumes inv moved
        have i := made.i
        cases made.gains with
        | inl one => exact .inl (consumedLess inv.most made (.inl one))
        | inr still =>
          by_cases some : s.j < s.i
          · exact .inl (consumedLess inv.most made (.inr ⟨still.1,some,still.2 some⟩))
          · have none : ¬ t.j < t.i := by omega
            have same : pushLeft t = pushLeft s := by simp only [pushLeft,made.producer]
            exact .inr ⟨by simp only [left,if_neg some,still.1,i,same],
              by simp only [helpful,if_neg some,if_neg none]⟩

theorem Inv.joins (inv : Inv capacity n s) (all : n ≤ s.j) (thread : Thread) : Joined n s thread := by
  have order := inv.order
  cases thread with
  | producer =>
    have push := inv.push
    cases pc : s.now.producer with
    | idle => exact ⟨pc,by omega⟩
    | _ =>
      simp only [PushAt,pc] at push
      omega
  | consumer =>
    have pop := inv.pop
    unfold PopAt at pop
    split at pop
    · rename_i pc
      exact ⟨pc,all⟩
    · exact absurd pop (Nat.not_lt.mpr all)
    · exact absurd pop (Nat.not_lt.mpr all)
    · exact absurd pop (Nat.not_lt.mpr all)
    · contradiction

theorem Inv.transferred (inv : Inv capacity n s) (all : n ≤ s.j) :
    s.received = (List.range n).map Int32.ofNat ∧ s.now.ring.empty = true := by
  have order := inv.order
  have most := inv.most
  have sent : s.i = n := by omega
  have taken : s.j = n := by omega
  constructor
  · rw [inv.received,inv.values,sent,taken]
    exact List.take_of_length_le (by simp)
  · have head := inv.threads.head
    have tail := inv.threads.tail
    rw [← inv.taken,taken] at head
    rw [inv.sent,sent] at tail
    simp only [ExactRing.empty,head,tail,decide_true]

theorem turnRefuses (inv : Inv 0 n s) (thread : Thread) : (turn n s thread).i = s.i := by
  have order := inv.order
  unfold turn
  cases moved : step n s thread with
  | none => rfl
  | some t =>
    cases thread with
    | producer =>
      have made := produces inv moved
      have room := made.inv.threads.room
      rw [made.inv.threads.made,made.inv.sent,← made.inv.taken,made.j] at room
      rw [Option.getD_some]
      cases made.gains with
      | inl one => omega
      | inr still => exact still.1
    | consumer => exact (consumes inv moved).i

section
variable {schedule : Nat → Thread}

theorem traceInv (capacity n : Nat) (schedule : Nat → Thread) (k : Nat) :
    Inv capacity n (trace (turn n) (init capacity) schedule k) :=
  traceKeeps turnKeeps (initInv capacity n) schedule k

theorem refusesForever (n : Nat) (schedule : Nat → Thread) (k : Nat) :
    (trace (turn n) (init 0) schedule k).i = 0 := by
  induction k with
  | zero => rfl
  | succ k ih => exact (turnRefuses (traceInv 0 n schedule k) (schedule k)).trans ih

theorem spinTransfers (capacity n : Nat) (schedule : Nat → Thread) :
    (∀ k, (trace (turn n) (init capacity) schedule k).received <+: (List.range n).map Int32.ofNat) ∧
    (Fair schedule →
      ((∃ k, ∀ thread, Joined n (trace (turn n) (init capacity) schedule k) thread) ↔
        n = 0 ∨ 1 ≤ capacity)) ∧
    ∀ k, (∀ thread, Joined n (trace (turn n) (init capacity) schedule k) thread) →
      (trace (turn n) (init capacity) schedule k).received = (List.range n).map Int32.ofNat ∧
      (trace (turn n) (init capacity) schedule k).now.ring.empty = true := by
  refine ⟨fun k => ?_,fun fair => ⟨fun joins => ?_,fun possible => ?_⟩,fun k joined => ?_⟩
  · have inv := traceInv capacity n schedule k
    rw [inv.received,inv.values]
    have part : List.range (trace (turn n) (init capacity) schedule k).i <+: List.range n := by
      rw [← Nat.min_eq_left inv.most,← List.take_range]
      exact List.take_prefix _ _
    exact (List.take_prefix _ _).trans (part.map Int32.ofNat)
  · obtain ⟨k,joined⟩ := joins
    by_contra stuck
    have none : capacity = 0 := by omega
    subst none
    have sent := (joined .producer).2
    rw [refusesForever] at sent
    omega
  · have reached : ∃ m, n ≤ (trace (turn n) (init capacity) schedule m).j := by
      cases possible with
      | inl none => exact ⟨0,by omega⟩
      | inr positive =>
        obtain ⟨m,_,all⟩ := (turnHelps positive).reaches (initInv capacity n) fair 0
        exact ⟨m,all⟩
    obtain ⟨m,all⟩ := reached
    exact ⟨m,(traceInv capacity n schedule m).joins all⟩
  · exact (traceInv capacity n schedule k).transferred (joined .consumer).2

theorem spinTransfersByTurns :
    ∃ k, (trace (turn 2) (init 1) (fun k => if k % 2 = 0 then .producer else .consumer) k).received =
      [0,1] := by
  have fair : Fair fun k => if k % 2 = 0 then Thread.producer else .consumer := by
    intro thread k
    cases thread with
    | producer => exact ⟨2*k,by omega,by simp⟩
    | consumer => exact ⟨2*k+1,by omega,by simp [Nat.add_mod]⟩
  obtain ⟨_,joins,arrived⟩ :=
    spinTransfers 1 2 (fun k => if k % 2 = 0 then .producer else .consumer)
  obtain ⟨k,joined⟩ := (joins fair).mpr (.inr (Nat.le_refl 1))
  exact ⟨k,(arrived k joined).1⟩

end
end FastReplay.Spin
