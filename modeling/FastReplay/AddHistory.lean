import FastReplay.RingBounds
import FastReplay.StepInStep

/-! What the ring holds when some adds have raised: one entry for each add, with the
pos that add found, whether or not the parent then stored a row. -/
namespace FastReplay
open GuardedRun SlidingWindow FastReplayBuffer

variable {P : ReplayBuffer} {std : StdVector} {fb : FastReplayBuffer P}

/- refused: push takes no such pos, and the parent is never asked. -/
inductive Outcome where
  | stored
  | raised
  | refused
  deriving DecidableEq, Repr

def outcome {ε σ : Type} : EStateM.Result (PyError ε) σ Unit → Outcome
  | .ok _ _ => .stored
  | .error (.parent _) _ => .raised
  | .error _ _ => .refused

structure Told (P : ReplayBuffer) where
  replay : Replay P
  adds : List Outcome

namespace Told

def start (fb : FastReplayBuffer P) : Told P := ⟨⟨fb,[]⟩,[]⟩

def tell (t : Told P) : ReplayOp P → List Outcome
  | .add x => outcome ((add x).run t.replay.buffer)::t.adds
  | .reset => []
  | .sample _ _ _ => t.adds

def step (std : StdVector) (t : Told P) (op : ReplayOp P) : Option (Told P) :=
  (Replay.step std t.replay op).map fun replay => ⟨replay,t.tell op⟩

end Told

def pushedAdds (adds : List Outcome) : List Outcome := adds.filter (· != .refused)

/- The first refused add has taken the oldest entry of a full ring. -/
def roomAfter (n : Nat) (adds : List Outcome) : Nat := if .refused ∈ adds then n-1 else n

theorem roomMost (n : Nat) (adds : List Outcome) : roomAfter n adds ≤ n := by
  unfold roomAfter
  split <;> omega

def foundPos (adds : List Outcome) : List Nat := spots (· == .stored) (pushedAdds adds)

def listedPos (n : Nat) (adds : List Outcome) : List CInt :=
  (((foundPos adds).map fun c => Int32.ofNat (c % n)).take (roomAfter n adds)).reverse

theorem pushedRefused (adds : List Outcome) : pushedAdds (.refused::adds) = pushedAdds adds :=
  List.filter_cons_of_neg (by decide)

theorem countPushed (adds : List Outcome) : (pushedAdds adds).count .stored = adds.count .stored :=
  List.count_filter (by decide)

theorem withRoomTake {n : Nat} (positive : 0 < n) (entries : List CInt) :
    withRoom n (entries.take n).reverse = (entries.take (n-1)).reverse := by
  unfold withRoom
  rw [List.length_reverse,List.length_take]
  split
  · rename_i full
    have least : min (n-1) n = n-1 := by omega
    rw [List.tail_reverse,List.dropLast_eq_take,List.length_take,full,List.take_take,least]
  · rw [List.take_of_length_le (by omega),List.take_of_length_le (by omega)]

theorem pushedReached {o : Outcome} (reached : o ≠ .refused) (adds : List Outcome) :
    pushedAdds (o::adds) = o::pushedAdds adds := List.filter_cons_of_pos (by simpa using reached)

theorem listedPushed {n : Nat} (positive : 0 < n) {o : Outcome} {adds : List Outcome}
    (none : .refused ∉ adds) (reached : o ≠ .refused) :
    turnOver n (listedPos n adds) (Int32.ofNat (adds.count .stored % n)) = listedPos n (o::adds) := by
  have all : .refused ∉ o::adds := by simp [none,reached.symm]
  obtain ⟨m,rfl⟩ : ∃ m, n = m+1 := ⟨n-1,by omega⟩
  rw [turnOverRoom,listedPos,listedPos,roomAfter,roomAfter,if_neg none,if_neg all,withRoomTake positive,
    foundPos,foundPos,pushedReached reached,spots,List.map_cons,List.take_succ_cons,
    List.reverse_cons,← countPushed]
  rfl

theorem listedRefused {n : Nat} (several : 1 < n) (adds : List Outcome) :
    withRoom n (listedPos n adds) = listedPos n (.refused::adds) := by
  rw [listedPos,listedPos,foundPos,foundPos,pushedRefused,roomAfter,roomAfter,if_pos List.mem_cons_self]
  by_cases before : .refused ∈ adds
  · rw [if_pos before]
    refine if_neg ?_
    rw [List.length_reverse,List.length_take]
    omega
  · rw [if_neg before,withRoomTake (by omega)]

structure Listed (t : Told P) : Prop where
  capacity : t.replay.buffer.indexRing.capacity.toNat = P.bufferSize
  counted : Counted P t.replay.buffer.parent (t.adds.count .stored)
  ring : Represents t.replay.buffer.indexRing (listedPos P.bufferSize t.adds)
  late : .refused ∈ t.adds → 2^31 ≤ P.pos t.replay.buffer.parent
  few : 2^31 < P.bufferSize → t.adds.count .stored ≤ 2^31
  small : 2^31 < P.bufferSize → ∀ c ∈ foundPos t.adds, c < 2^31

theorem freshListed {parent : P.State} {ring : RingBuffer} (made : newRing P std = .ok ring)
    (noWrap : P.bufferSize+1 < 2^64) (pos : P.pos parent = 0) (full : P.full parent = false) :
    Listed (Told.start ⟨parent,ring⟩) := by
  obtain ⟨stores,capacity⟩ := newRingFresh made noWrap
  have nothing : listedPos P.bufferSize [] = [] := by simp [listedPos,foundPos,pushedAdds,spots]
  rw [← nothing] at stores
  exact ⟨capacity,countedFresh pos full,stores,by simp [Told.start],by simp [Told.start],
    by simp [Told.start,foundPos,pushedAdds,spots]⟩

theorem Listed.countedSmall {t : Told P} (h : Listed t)
    (small : P.pos t.replay.buffer.parent < 2^31) :
    2^31 < P.bufferSize → t.adds.count .stored < 2^31 := by
  intro large
  have few := h.few large
  have pos := h.counted.pos
  rw [Nat.mod_eq_of_lt (by omega)] at pos
  omega

theorem Listed.next {t : Told P} (h : Listed t) (small : P.pos t.replay.buffer.parent < 2^31)
    {o : Outcome} (reached : o ≠ .refused) {parent : P.State} {ring : RingBuffer}
    (counted : Counted P parent ((o::t.adds).count .stored))
    (stores : Represents ring (turnOver P.bufferSize (listedPos P.bufferSize t.adds)
      (Int32.ofNat (P.pos t.replay.buffer.parent))))
    (capacity : ring.capacity = t.replay.buffer.indexRing.capacity) (stored : List P.Transition) :
    Listed ⟨⟨⟨parent,ring⟩,stored⟩,o::t.adds⟩ := by
  have none : .refused ∉ t.adds := fun mem => absurd (h.late mem) (by omega)
  have below := h.countedSmall small
  rw [h.counted.pos,listedPushed P.positive none reached] at stores
  refine ⟨by rw [← h.capacity]; exact congrArg _ capacity,counted,stores,fun mem => ?_,
    fun large => ?_,fun large c mem => ?_⟩
  · exact absurd ((List.mem_cons.mp mem).resolve_left reached.symm) none
  · have once := below large
    dsimp only
    rw [List.count_cons]
    split <;> omega
  · rw [foundPos,pushedReached reached,spots] at mem
    rcases List.mem_cons.mp mem with rfl | old
    · rw [← List.count,countPushed]
      exact below large
    · exact h.small large c old

theorem Listed.refused {t : Told P} (h : Listed t) (large : 2^31 ≤ P.pos t.replay.buffer.parent)
    {ring : RingBuffer}
    (stores : Represents ring (withRoom P.bufferSize (listedPos P.bufferSize t.adds)))
    (capacity : ring.capacity = t.replay.buffer.indexRing.capacity) (stored : List P.Transition) :
    Listed ⟨⟨⟨t.replay.buffer.parent,ring⟩,stored⟩,.refused::t.adds⟩ := by
  have below := h.counted.posBelow
  have same : (Outcome.refused::t.adds).count .stored = t.adds.count .stored :=
    List.count_cons_of_ne (by decide)
  rw [listedRefused (by omega)] at stores
  refine ⟨by rw [← h.capacity]; exact congrArg _ capacity,?_,stores,fun _ => large,?_,?_⟩
  · rw [same]
    exact h.counted
  · rw [same]
    exact h.few
  · rw [foundPos,pushedRefused]
    exact h.small

theorem stepListed {fresh : RingBuffer} (made : newRing P std = .ok fresh)
    (noWrap : P.bufferSize+1 < 2^64) (t : Told P) (op : ReplayOp P) (h : Listed t) :
    ∃ u, Told.step std t op = some u ∧ Listed u := by
  cases op with
  | add x =>
    have is := addIs h.ring h.capacity x
    simp only [Told.step,Told.tell,Replay.step]
    generalize (add x).run t.replay.buffer = result at is ⊢
    cases is with
    | stored small added stores capacity =>
      have counted := h.counted.returned added
      rw [← List.count_cons_self] at counted
      exact ⟨_,rfl,h.next small (o := .stored) (by decide) counted stores capacity _⟩
    | raised small added stores capacity =>
      have counted := h.counted.raised added
      rw [← List.count_cons_of_ne (b := Outcome.raised) (by decide)] at counted
      exact ⟨_,rfl,h.next small (o := .raised) (by decide) counted stores capacity _⟩
    | refused large stores capacity => exact ⟨_,rfl,h.refused large stores capacity _⟩
  | reset =>
    obtain ⟨pos,full⟩ := P.resets t.replay.buffer.parent
    exact ⟨_,by rw [Told.step,resetStep made]; rfl,freshListed made noWrap pos full⟩
  | sample gen batchSize env =>
    exact ⟨t,by rw [Told.step,sampleStep h.ring]; rfl,h⟩

/-! A buffer of 2^64 - 1 rows has a ring with a zero modulus. -/

theorem newRingZero {ring : RingBuffer} (made : newRing P std = .ok ring)
    (wrapped : ¬ P.bufferSize+1 < 2^64) : ring.capacity+1 = 0 := by
  simp only [newRing,asSizeT] at made
  split at made <;> try contradiction
  rename_i fits
  simp only [bind,Except.bind] at made
  cases result : RingBuffer.construct std (UInt64.ofNat P.bufferSize) with
  | error fault => simp [result,Except.mapError] at made
  | ok fresh =>
    simp only [result,Except.mapError,Except.ok.injEq] at made
    subst made
    have word : (UInt64.ofNat P.bufferSize).toNat = P.bufferSize :=
      UInt64.toNat_ofNat_of_lt (by rw [UInt64.size]; omega)
    rw [(RingBuffer.constructed result).1]
    exact zeroSlots (by dsimp only; omega)

theorem addZero (zero : fb.indexRing.capacity+1 = 0) (x : P.Transition) :
    (add x).run fb = .error (.ring .divideByZero) fb := by
  have sized : RingBuffer.size.run fb.indexRing = .error .divideByZero fb.indexRing := by
    simp only [RingBuffer.size,EStateM.run_bind,EStateM.run_get,zeroModulo zero]
  simp only [add,evict,EStateM.run_bind,onRingFault sized]

theorem sampleZero (zero : fb.indexRing.capacity+1 = 0) (gen : Generator) (batchSize : SizeT)
    (env : P.Env) : (sample std gen batchSize env).run fb = .error (.ring .divideByZero) fb := by
  have shown : RingBuffer.asarray.run fb.indexRing
      = .ok (fb.indexRing.buf.take 0) fb.indexRing := by
    simp only [RingBuffer.asarray,EStateM.run_bind,EStateM.run_get,zero]
    rfl
  have drawn : (RingBuffer.sampleIndicesInt64 std gen batchSize).run fb.indexRing
      = .error .divideByZero fb.indexRing := by
    simp only [RingBuffer.sampleIndicesInt64,RingBuffer.sampleIndices,EStateM.run_bind,EStateM.run_get,
      zeroModulo zero]
  simp only [sample,batchInds,EStateM.run_bind,onRingRun shown,onRingFault drawn]

theorem nothingStored {ops : List (ReplayOp P)} {t : Told P} (made : construct P std = .ok fb)
    (wrapped : ¬ P.bufferSize+1 < 2^64) (run : exec (Told.step std) (Told.start fb) ops = some t) :
    P.size t.replay.buffer.parent = 0 := by
  obtain ⟨fresh,parent⟩ := constructed made
  have zero := newRingZero fresh wrapped
  have still := preserved
    (I := fun t : Told P => t.replay.buffer.indexRing.capacity+1 = 0 ∧
      Counted P t.replay.buffer.parent 0)
    (fun t op u h moved => by
      cases op with
      | add x =>
        simp [Told.step,Replay.step,Replay.after,addZero h.1,PyError.undefined,
          Fault.undefined] at moved
      | reset =>
        rw [Told.step,resetStep fresh] at moved
        cases Option.some.inj moved
        obtain ⟨pos,full⟩ := P.resets t.replay.buffer.parent
        exact ⟨zero,countedFresh pos full⟩
      | sample gen batchSize env =>
        simp [Told.step,Replay.step,Replay.after,sampleZero h.1,PyError.undefined,
          Fault.undefined] at moved)
    run ⟨zero,countedFresh (by rw [Told.start,parent]; exact P.initial.1)
      (by rw [Told.start,parent]; exact P.initial.2)⟩
  rw [still.2.size,kept,Nat.zero_min]

end FastReplay
