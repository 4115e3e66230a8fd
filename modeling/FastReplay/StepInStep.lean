import FastReplay.IndexRing

/-! After any run of adds, samples and resets the ring lists the rows of the parent's
storage, oldest first. -/
namespace FastReplay
open GuardedRun SlidingWindow FastReplayBuffer
open Replay (AddReturns)

variable {P : ReplayBuffer} {std : StdVector}

structure Counted (P : ReplayBuffer) (s : P.State) (k : Nat) : Prop where
  pos : P.pos s = k % P.bufferSize
  full : P.full s = decide (P.bufferSize ≤ k)

theorem countedFresh {s : P.State} (pos : P.pos s = 0) (full : P.full s = false) : Counted P s 0 := by
  have positive := P.positive
  refine ⟨by simp [pos],?_⟩
  rw [full]
  exact (decide_eq_false (by omega)).symm

theorem Counted.posBelow {s : P.State} {k : Nat} (h : Counted P s k) : P.pos s < P.bufferSize := by
  rw [h.pos]
  exact Nat.mod_lt _ P.positive

theorem Counted.size {s : P.State} {k : Nat} (h : Counted P s k) : P.size s = kept P.bufferSize k := by
  unfold ReplayBuffer.size kept
  rw [h.full,h.pos]
  by_cases full : P.bufferSize ≤ k
  · rw [decide_eq_true full,if_pos rfl]
    omega
  · rw [decide_eq_false full,if_neg (by simp),Nat.mod_eq_of_lt (by omega)]
    omega

theorem Counted.returned {s t : P.State} {k : Nat} (h : Counted P s k) {x : P.Transition}
    (added : (P.add x).run s = .ok () t) : Counted P t (k+1) := by
  obtain ⟨pos,full⟩ := P.addReturns x _ _ h.posBelow added
  refine ⟨by rw [pos,h.pos,Nat.mod_add_mod],?_⟩
  rw [full,h.full,h.pos,Bool.eq_iff_iff]
  simp only [Bool.or_eq_true,decide_eq_true_eq]
  exact fullNext

theorem Counted.raised {s t : P.State} {k : Nat} (h : Counted P s k) {x : P.Transition} {e : P.Error}
    (added : (P.add x).run s = .error e t) : Counted P t k := by
  obtain ⟨pos,full⟩ := P.addRaises x _ _ _ added
  exact ⟨by rw [pos,h.pos],by rw [full,h.full]⟩

structure InStep (fb : FastReplayBuffer P) (k : Nat) : Prop where
  capacity : fb.indexRing.capacity.toNat = P.bufferSize
  pos : P.pos fb.parent = k % P.bufferSize
  full : P.full fb.parent = decide (P.bufferSize ≤ k)
  ring : Represents fb.indexRing ((places P.bufferSize k).map Int32.ofNat)

variable {fb : FastReplayBuffer P} {k : Nat}

theorem InStep.counted (h : InStep fb k) : Counted P fb.parent k := ⟨h.pos,h.full⟩

theorem freshRing {parent : P.State} {ring : RingBuffer} (made : newRing P std = .ok ring)
    (noWrap : P.bufferSize+1 < 2^64) (pos : P.pos parent = 0) (full : P.full parent = false) :
    InStep ⟨parent,ring⟩ 0 := by
  obtain ⟨stores,capacity⟩ := newRingFresh made noWrap
  have counted := countedFresh pos full
  have nothing : places P.bufferSize 0 = [] := by simp [places,kept]
  exact ⟨capacity,counted.pos,counted.full,by simpa [nothing] using stores⟩

theorem freshInStep {parent : P.State} {ring : RingBuffer} (made : newRing P std = .ok ring)
    (fits : P.bufferSize ≤ 2^31) (pos : P.pos parent = 0) (full : P.full parent = false) :
    InStep ⟨parent,ring⟩ 0 := freshRing made (by omega) pos full

theorem turnOverPlaces (n k : Nat) (positive : 0 < n) :
    turnOver n ((places n k).map Int32.ofNat) (Int32.ofNat (k % n))
      = (places n (k+1)).map Int32.ofNat := by
  unfold turnOver
  rw [List.length_map,placesLength]
  unfold kept
  rcases Nat.lt_or_ge k n with filling | full
  · rw [if_neg (by omega),placesGrow filling]
    simp
  · obtain ⟨rest,before,after⟩ := placesSlide full positive
    rw [if_pos (by omega),before,after]
    simp

theorem InStep.size (h : InStep fb k) : P.size fb.parent = kept P.bufferSize k := h.counted.size

theorem InStep.posBelow (h : InStep fb k) : P.pos fb.parent < P.bufferSize := h.counted.posBelow

theorem InStep.addFits (h : InStep fb k) (small : P.pos fb.parent < 2^31) (x : P.Transition) :
    ∃ ring, Represents ring ((places P.bufferSize (k+1)).map Int32.ofNat) ∧
      ring.capacity = fb.indexRing.capacity ∧
      (add x).run fb = match (P.add x).run fb.parent with
        | .ok _ parent => .ok () ⟨parent,ring⟩
        | .error e parent => .error (.parent e) ⟨parent,ring⟩ := by
  obtain ⟨ring,stores,capacity,run⟩ := FastReplayBuffer.addRun h.ring
    (by rw [h.capacity]; exact P.positive) small x
  rw [h.capacity,h.pos,turnOverPlaces _ _ P.positive] at stores
  exact ⟨ring,stores,capacity,run⟩

theorem InStep.addRun (h : InStep fb k) (fits : P.bufferSize ≤ 2^31) (x : P.Transition) :
    ∃ ring, Represents ring ((places P.bufferSize (k+1)).map Int32.ofNat) ∧
      ring.capacity = fb.indexRing.capacity ∧
      (add x).run fb = match (P.add x).run fb.parent with
        | .ok _ parent => .ok () ⟨parent,ring⟩
        | .error e parent => .error (.parent e) ⟨parent,ring⟩ :=
  h.addFits (Nat.lt_of_lt_of_le h.posBelow fits) x

theorem InStep.returned (h : InStep fb k) {x : P.Transition} {parent : P.State} {ring : RingBuffer}
    (added : (P.add x).run fb.parent = .ok () parent)
    (stores : Represents ring ((places P.bufferSize (k+1)).map Int32.ofNat))
    (capacity : ring.capacity = fb.indexRing.capacity) : InStep ⟨parent,ring⟩ (k+1) := by
  have next := h.counted.returned added
  exact ⟨by rw [capacity,h.capacity],next.pos,next.full,stores⟩

theorem sampleStep {s : Replay P} {entries : List CInt} (h : Represents s.buffer.indexRing entries)
    (std : StdVector) (gen : Generator) (batchSize : SizeT) (env : P.Env) :
    Replay.step std s (.sample gen batchSize env) = some s := by
  simp only [Replay.step]
  rcases sampleKeeps h std gen batchSize env with ⟨batch,run⟩ | ⟨e,defined,run⟩
  · rw [run]
    rfl
  · simp [run,Replay.after,defined]

theorem resetStep {fresh : RingBuffer} (made : newRing P std = .ok fresh) (s : Replay P) :
    Replay.step std s .reset = some ⟨⟨P.reset s.buffer.parent,fresh⟩,[]⟩ := by
  simp only [Replay.step,resetRun made,Replay.after]

theorem stepInStep {fresh : RingBuffer} (made : newRing P std = .ok fresh) (fits : P.bufferSize ≤ 2^31)
    (s : Replay P) (op : ReplayOp P) (h : InStep s.buffer s.stored.length) (returns : AddReturns s op) :
    ∃ t, Replay.step std s op = some t ∧ InStep t.buffer t.stored.length := by
  cases op with
  | add x =>
    obtain ⟨ring,stores,capacity,run⟩ := h.addRun fits x
    obtain ⟨fb,returned⟩ := returns
    rw [run] at returned
    simp only [Replay.step,run]
    cases added : (P.add x).run s.buffer.parent with
    | error e parent => simp [added] at returned
    | ok u parent =>
      refine ⟨_,rfl,?_⟩
      simp only [List.length_append,List.length_singleton]
      exact h.returned added stores capacity
  | reset =>
    obtain ⟨pos,full⟩ := P.resets s.buffer.parent
    exact ⟨_,resetStep made s,freshInStep made fits pos full⟩
  | sample gen batchSize env => exact ⟨s,sampleStep h.ring std gen batchSize env,h⟩

theorem startRing {fb : FastReplayBuffer P} (made : construct P std = .ok fb)
    (noWrap : P.bufferSize+1 < 2^64) : newRing P std = .ok fb.indexRing ∧ InStep fb 0 := by
  obtain ⟨fresh,parent⟩ := constructed made
  exact ⟨fresh,freshRing fresh noWrap (by rw [parent]; exact P.initial.1)
    (by rw [parent]; exact P.initial.2)⟩

theorem startInStep {fb : FastReplayBuffer P} (made : construct P std = .ok fb)
    (fits : P.bufferSize ≤ 2^31) : newRing P std = .ok fb.indexRing ∧ InStep fb 0 :=
  startRing made (by omega)

theorem runInStep {fb : FastReplayBuffer P} (made : construct P std = .ok fb)
    (fits : P.bufferSize ≤ 2^31) {ops : List (ReplayOp P)}
    (returns : Meets (Replay.step std) AddReturns ⟨fb,[]⟩ ops) :
    ∃ s, exec (Replay.step std) ⟨fb,[]⟩ ops = some s ∧ InStep s.buffer s.stored.length := by
  obtain ⟨fresh,start⟩ := startInStep made fits
  exact reaches (I := fun s => InStep s.buffer s.stored.length)
    (fun s op => stepInStep fresh fits s op) returns start

def content (n pos m : Nat) : List CInt :=
  (List.range m).map fun i => Int32.ofNat ((pos + n - m + i) % n)

theorem InStep.content (h : InStep fb k) : (places P.bufferSize k).map Int32.ofNat
    = content P.bufferSize (P.pos fb.parent) (P.size fb.parent) := by
  rw [h.size,h.pos,places,List.range'_eq_map_range,List.map_map,List.map_map,FastReplay.content]
  refine List.map_congr_left fun i _ => ?_
  simp only [Function.comp,placeBack P.bufferSize k]

theorem indexWord {n i : Nat} (fits : n ≤ 2^31) (below : i < n) : (Int32.ofNat i).toInt = i :=
  Int32.toInt_ofNat_of_lt (by omega)

theorem indexInjective {n i j : Nat} (fits : n ≤ 2^31) (hi : i < n) (hj : j < n)
    (same : Int32.ofNat i = Int32.ofNat j) : i = j := by
  have values := congrArg Int32.toInt same
  rw [indexWord fits hi,indexWord fits hj] at values
  exact Int.ofNat_inj.mp values

theorem placesDistinct {n k : Nat} (positive : 0 < n) (few : kept n k ≤ 2^31) :
    ((places n k).map Int32.ofNat).Nodup := by
  refine List.Nodup.map_on ?_ placesNodup
  intro i memI j memJ same
  exact indexInjective few (placesBelow positive memI) (placesBelow positive memJ) same

structure RingMatches (fb : FastReplayBuffer P) : Prop where
  ring : Represents fb.indexRing (content P.bufferSize (P.pos fb.parent) (P.size fb.parent))
  distinct : (content P.bufferSize (P.pos fb.parent) (P.size fb.parent)).Nodup
  size : ∃ n, ringSize.run fb = .ok n fb ∧ n.toNat = P.size fb.parent
  pushes : ∃ mid ring,
    evict.run fb = .ok (if P.full fb.parent then some (Int32.ofNat (P.pos fb.parent)) else none)
      { fb with indexRing := mid } ∧
    record.run { fb with indexRing := mid } = .ok true { fb with indexRing := ring }

theorem InStep.evicted (h : InStep fb k) :
    evicted P.bufferSize ((places P.bufferSize k).map Int32.ofNat)
      = if P.full fb.parent then some (Int32.ofNat (P.pos fb.parent)) else none := by
  unfold FastReplayBuffer.evicted
  rw [List.length_map,placesLength,h.full,h.pos]
  unfold kept
  by_cases full : P.bufferSize ≤ k
  · obtain ⟨rest,before,_⟩ := placesSlide full P.positive
    rw [if_pos (by omega),decide_eq_true full,if_pos rfl,before]
    rfl
  · rw [if_neg (by omega),decide_eq_false full,if_neg (by simp)]

theorem InStep.ringMatches (h : InStep fb k) (fits : P.bufferSize ≤ 2^31) : RingMatches fb := by
  have below := h.posBelow
  obtain ⟨mid,ring,popped,pushed,_,_⟩ := ringPart h.ring
    (by rw [h.capacity]; exact P.positive) (by omega)
  rw [h.capacity,h.evicted] at popped
  obtain ⟨n,sized,word⟩ := h.ring.sizeRun
  refine ⟨?_,?_,⟨n,onRingRun sized,?_⟩,⟨mid,ring,popped,pushed⟩⟩
  · rw [← h.content]
    exact h.ring
  · rw [← h.content]
    exact placesDistinct P.positive (Nat.le_trans (keptSmall _ _) fits)
  · rw [word,List.length_map,placesLength,h.size]

theorem placesNonempty {n k : Nat} (positive : 0 < n) (nonempty : 0 < k) :
    (places n k).map Int32.ofNat ≠ [] := by
  rw [← List.length_pos_iff,List.length_map,placesLength]
  unfold kept
  omega

def drawnAdd (n k : Nat) (gen : Generator) (i : Nat) : Nat := k - kept n k + gen.draw (kept n k - 1) i

theorem drawnBelow {n k : Nat} (positive : 0 < n) (nonempty : 0 < k) (gen : Generator) (i : Nat) :
    gen.draw (kept n k - 1) i < kept n k := by
  have := gen.inRange (kept n k - 1) i
  have : 0 < kept n k := by unfold kept; omega
  omega

theorem InStep.batchInds (h : InStep fb k) (nonempty : 0 < k) (gen : Generator) {batchSize : SizeT}
    (short : ¬ std.maxWords < batchSize.toNat) :
    (batchInds std gen batchSize).run fb = .ok ((List.range batchSize.toNat).map fun i =>
      Int32.ofNat (drawnAdd P.bufferSize k gen i % P.bufferSize)) fb := by
  rw [batchIndsRun h.ring (placesNonempty P.positive nonempty) gen short,List.length_map,placesLength]
  congr 1
  refine List.map_congr_left fun i _ => ?_
  simp [List.getD,placesAt (drawnBelow P.positive nonempty gen i),drawnAdd]

theorem indexRingInStep (P : ReplayBuffer) (std : StdVector) (fb : FastReplayBuffer P)
    (made : construct P std = .ok fb) (fits : P.bufferSize ≤ 2^31) (ops : List (ReplayOp P))
    (returns : Meets (Replay.step std) AddReturns ⟨fb,[]⟩ ops) :
    ∃ s, exec (Replay.step std) ⟨fb,[]⟩ ops = some s ∧ RingMatches s.buffer := by
  obtain ⟨s,run,h⟩ := runInStep made fits returns
  exact ⟨s,run,h.ringMatches fits⟩

theorem threeAddsReturn : Meets (Replay.step StdVector.small) AddReturns ⟨twoRows,[]⟩
    [.add (some 7),.add (some 8),.add (some 9)] := by
  refine ⟨⟨_,rfl⟩,?_⟩
  rintro _ ⟨⟩
  refine ⟨⟨_,rfl⟩,?_⟩
  rintro _ ⟨⟩
  exact ⟨⟨_,rfl⟩,fun _ _ => trivial⟩

theorem indexRingInStepAtTwo :
    ∃ s, exec (Replay.step StdVector.small) ⟨twoRows,[]⟩
      [.add (some 7),.add (some 8),.add (some 9)] = some s ∧ RingMatches s.buffer := by
  exact indexRingInStep (arrays 2) StdVector.small twoRows rfl (by decide) _
    threeAddsReturn

end FastReplay
