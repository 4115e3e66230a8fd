import FastReplay.StepInStep

/-! add when the parent raises: pos and full stay, and the ring has already been given
the new index, at the price of its oldest one when it was full. -/
namespace FastReplay
open GuardedRun SlidingWindow FastReplayBuffer

variable {P : ReplayBuffer} {std : StdVector} {fb : FastReplayBuffer P} {entries : List CInt}

/- The ring is full of the very index that the add pushes and evicts. -/
def Unharmed (fb : FastReplayBuffer P) : Prop :=
  fb.indexRing.held.length = fb.indexRing.capacity.toNat ∧
    ∀ v ∈ fb.indexRing.held, v = Int32.ofNat (P.pos fb.parent)

def FailsUnharmed (s : Replay P) : ReplayOp P → Prop
  | .add x => (∃ e fb, (add x).run s.buffer = .error (.parent e) fb) → Unharmed s.buffer
  | _ => True

theorem rotatesToItself {v : CInt} {rest : List CInt} {a : CInt} (same : rest ++ [v] = a::rest) :
    ∀ x ∈ a::rest, x = v := by
  induction rest generalizing a with
  | nil => simpa using (List.cons.inj same).1.symm
  | cons b rest ih =>
    simp only [List.cons_append,List.cons.injEq] at same
    obtain ⟨rfl,same⟩ := same
    have later := ih same
    intro x mem
    rcases List.mem_cons.mp mem with rfl | mem
    · exact later x List.mem_cons_self
    · exact later x mem

theorem turnOverSame {n : Nat} (positive : 0 < n) (v : CInt) :
    turnOver n entries v = entries ↔ entries.length = n ∧ ∀ x ∈ entries, x = v := by
  unfold turnOver
  by_cases full : entries.length = n
  · rw [if_pos full]
    cases entries with
    | nil => simp at full; omega
    | cons a rest =>
      refine ⟨fun same => ⟨full,rotatesToItself same⟩,fun ⟨_,all⟩ => ?_⟩
      have replicated : a::rest = List.replicate (rest.length+1) v :=
        List.eq_replicate_iff.mpr ⟨rfl,all⟩
      obtain ⟨rfl,tail⟩ := List.cons.inj replicated
      rw [List.tail_cons,tail,← List.replicate_succ']
      rfl
  · rw [if_neg full]
    refine ⟨fun same => ?_,fun holds => absurd holds.1 full⟩
    have := congrArg List.length same
    simp at this

structure Tracked (fb : FastReplayBuffer P) : Prop where
  ring : Represents fb.indexRing fb.indexRing.held
  capacity : fb.indexRing.capacity.toNat = P.bufferSize
  pos : P.pos fb.parent < P.bufferSize

theorem trackedOf (ring : Represents fb.indexRing entries)
    (capacity : fb.indexRing.capacity.toNat = P.bufferSize) (pos : P.pos fb.parent < P.bufferSize) :
    Tracked fb := ⟨by rwa [ring.held],capacity,pos⟩

theorem stepTracked {fresh : RingBuffer} (made : newRing P std = .ok fresh)
    (noWrap : P.bufferSize+1 < 2^64) (s : Replay P) (op : ReplayOp P) (h : Tracked s.buffer) :
    ∃ t, Replay.step std s op = some t ∧ Tracked t.buffer := by
  cases op with
  | add x =>
    have is := addIs h.ring h.capacity x
    simp only [Replay.step]
    generalize (add x).run s.buffer = result at is ⊢
    cases is with
    | stored small added stores capacity =>
      refine ⟨_,rfl,trackedOf stores (by rw [capacity,h.capacity]) ?_⟩
      rw [(P.addReturns x _ _ h.pos added).1]
      exact Nat.mod_lt _ P.positive
    | raised small added stores capacity =>
      refine ⟨_,rfl,trackedOf stores (by rw [capacity,h.capacity]) ?_⟩
      rw [(P.addRaises x _ _ _ added).1]
      exact h.pos
    | refused large stores capacity =>
      exact ⟨_,rfl,trackedOf stores (by rw [capacity,h.capacity]) h.pos⟩
  | reset =>
    obtain ⟨stores,capacity⟩ := newRingFresh made noWrap
    exact ⟨_,resetStep made s,trackedOf stores capacity (by rw [(P.resets _).1]; exact P.positive)⟩
  | sample gen batchSize env => exact ⟨s,sampleStep h.ring std gen batchSize env,h⟩

theorem InStep.tracked {k : Nat} (h : InStep fb k) : Tracked fb :=
  trackedOf h.ring h.capacity h.posBelow

theorem Tracked.unharmedExactly (h : Tracked fb) {x : P.Transition} {e : P.Error}
    {after : FastReplayBuffer P} (raised : (add x).run fb = .error (.parent e) after) :
    after.indexRing.held = fb.indexRing.held ↔ Unharmed fb := by
  have is := addIs h.ring h.capacity x
  rw [raised] at is
  cases is with
  | raised small added stores capacity =>
    rw [stores.held,turnOverSame P.positive,Unharmed,h.capacity]

structure Countable (s : Replay P) : Prop where
  inStep : InStep s.buffer s.stored.length
  few : 2^31 < P.bufferSize → s.stored.length ≤ 2^31

theorem Countable.fewKept {s : Replay P} (h : Countable s) :
    kept P.bufferSize s.stored.length ≤ 2^31 := by
  have few := h.few
  unfold kept
  omega

theorem Countable.refused {s : Replay P} (h : Countable s) (large : 2^31 ≤ P.pos s.buffer.parent) :
    2^31 < P.bufferSize ∧ s.stored.length = 2^31 := by
  have below := h.inStep.posBelow
  have few := h.few (by omega)
  have pos := h.inStep.pos
  rw [Nat.mod_eq_of_lt (by omega)] at pos
  exact ⟨by omega,by omega⟩

theorem Countable.next {s : Replay P} (h : Countable s) (small : P.pos s.buffer.parent < 2^31) :
    2^31 < P.bufferSize → s.stored.length+1 ≤ 2^31 := by
  intro large
  have pos := h.inStep.pos
  have few := h.few large
  rw [Nat.mod_eq_of_lt (by omega)] at pos
  omega

theorem unharmedStep {fresh : RingBuffer} (made : newRing P std = .ok fresh)
    (noWrap : P.bufferSize+1 < 2^64) (s : Replay P) (op : ReplayOp P) (h : Countable s)
    (unharmed : FailsUnharmed s op) : ∃ t, Replay.step std s op = some t ∧ Countable t := by
  cases op with
  | add x =>
    have capacity' := h.inStep.capacity
    have is := addIs h.inStep.ring capacity' x
    simp only [FailsUnharmed] at unharmed
    simp only [Replay.step]
    generalize (add x).run s.buffer = result at is unharmed ⊢
    cases is with
    | stored small added stores capacity =>
      rw [h.inStep.pos,turnOverPlaces _ _ P.positive] at stores
      refine ⟨_,rfl,?_,?_⟩
      · rw [List.length_append,List.length_singleton]
        exact h.inStep.returned added stores capacity
      · rw [List.length_append,List.length_singleton]
        exact h.next small
    | raised small added stores capacity =>
      have same := unharmed ⟨_,_,rfl⟩
      -- the ring has turned over into itself
      rw [Unharmed,capacity',h.inStep.ring.held] at same
      rw [(turnOverSame P.positive _).mpr same] at stores
      have counted := h.inStep.counted.raised added
      exact ⟨_,rfl,⟨by rw [capacity,capacity'],counted.pos,counted.full,stores⟩,h.few⟩
    | refused large stores capacity =>
      obtain ⟨more,last⟩ := h.refused large
      have room : ((places P.bufferSize s.stored.length).map Int32.ofNat).length ≠ P.bufferSize := by
        rw [List.length_map,placesLength,last]
        unfold kept
        omega
      rw [withRoom,if_neg room] at stores
      exact ⟨_,rfl,⟨by rw [capacity,capacity'],h.inStep.pos,h.inStep.full,stores⟩,h.few⟩
  | reset =>
    obtain ⟨pos,full⟩ := P.resets s.buffer.parent
    exact ⟨_,resetStep made s,freshRing made noWrap pos full,fun _ => Nat.zero_le _⟩
  | sample gen batchSize env => exact ⟨s,sampleStep h.inStep.ring std gen batchSize env,h⟩

/- The ring and the storage agree: equal sizes, no row twice,
none missing, and sample asks only for rows that an add has filled. -/
structure RingTellsRows (std : StdVector) (s : Replay P) : Prop where
  size : ∃ n, ringSize.run s.buffer = .ok n s.buffer ∧ n.toNat = P.size s.buffer.parent
  distinct : s.buffer.indexRing.held.Nodup
  present : ∀ r, r < P.size s.buffer.parent → Int32.ofNat r ∈ s.buffer.indexRing.held
  filled : ∀ gen batchSize inds after, (batchInds std gen batchSize).run s.buffer = .ok inds after →
    ∀ r ∈ inds, ∃ j, j < s.stored.length ∧ s.stored.length ≤ j + P.bufferSize ∧
      r = Int32.ofNat (j % P.bufferSize)

theorem Countable.tellsRows {s : Replay P} (counted : Countable s) : RingTellsRows std s where
  size := by
    obtain ⟨n,sized,word⟩ := counted.inStep.ring.sizeRun
    exact ⟨n,onRingRun sized,by rw [word,List.length_map,placesLength,counted.inStep.size]⟩
  distinct := by
    rw [counted.inStep.ring.held]
    exact placesDistinct P.positive counted.fewKept
  present := by
    intro r below
    rw [counted.inStep.ring.held]
    rw [counted.inStep.size] at below
    exact List.mem_map_of_mem ((placesMem P.positive).mpr below)
  filled := by
    intro gen batchSize inds after run r mem
    have h := counted.inStep
    rcases Nat.eq_zero_or_pos s.stored.length with none | some
    · have empty := h.ring
      rw [none] at empty
      have raised := batchIndsEmpty (by simpa [places,kept] using empty) std gen batchSize
      rw [run] at raised
      contradiction
    · by_cases long : std.maxWords < batchSize.toNat
      · have raised := batchIndsLong h.ring (placesNonempty P.positive some) gen long
        rw [run] at raised
        contradiction
      · rw [h.batchInds some gen long] at run
        cases run
        obtain ⟨i,_,rfl⟩ := List.mem_map.mp mem
        have drawn := drawnBelow P.positive some gen i
        have total := keptTotal P.bufferSize s.stored.length
        have small := keptSmall P.bufferSize s.stored.length
        exact ⟨_,by unfold drawnAdd; omega,by unfold drawnAdd; omega,rfl⟩

theorem failedAddExactly (P : ReplayBuffer) (std : StdVector) (fb : FastReplayBuffer P)
    (made : construct P std = .ok fb) (noWrap : P.bufferSize+1 < 2^64) (ops : List (ReplayOp P)) :
    ∃ s, exec (Replay.step std) ⟨fb,[]⟩ ops = some s ∧
      (∀ x e after, (add x).run s.buffer = .error (.parent e) after →
        (after.indexRing.held = s.buffer.indexRing.held ↔ Unharmed s.buffer)) ∧
      (Meets (Replay.step std) FailsUnharmed ⟨fb,[]⟩ ops → RingTellsRows std s) := by
  obtain ⟨fresh,start⟩ := startRing made noWrap
  have free : Meets (Replay.step std) (fun _ _ => True) ⟨fb,[]⟩ ops :=
    meetsAlways (fun _ _ _ => trivial) _
  -- a failed add never ends a run, whatever it leaves in the ring
  obtain ⟨s,run,tracked⟩ := reaches (I := fun s => Tracked s.buffer)
    (fun s op h _ => stepTracked fresh noWrap s op h) free start.tracked
  refine ⟨s,run,fun x e after raised => tracked.unharmedExactly raised,?_⟩
  intro unharmed
  obtain ⟨t,ran,counted⟩ := reaches (fun s op => unharmedStep fresh noWrap s op) unharmed
    ⟨start,fun _ => Nat.zero_le _⟩
  cases Option.some.inj (ran.symm.trans run)
  exact counted.tellsRows

def oneRow : FastReplayBuffer (arrays 1) := ⟨Arrays.blank,⟨1,[0,0],0,0⟩⟩

def oneFilled : FastReplayBuffer (arrays 1) :=
  ⟨Arrays.mk (Function.update (fun _ => some 0) 0 (some 7)) 0 true,⟨1,[0,0],0,1⟩⟩

theorem failedAddExactlyAtOne : ∃ s,
    exec (Replay.step StdVector.small) ⟨oneRow,[]⟩ [.add (some 7),.add none] = some s ∧
      s.stored = [some 7] ∧ s.buffer.indexRing.head = 1 ∧ RingTellsRows StdVector.small s := by
  obtain ⟨s,run,_,tells⟩ := failedAddExactly (arrays 1) StdVector.small oneRow rfl (by decide)
    [.add (some 7),.add none]
  have filled : Replay.step StdVector.small ⟨oneRow,[]⟩ (.add (some 7))
      = some ⟨oneFilled,[some 7]⟩ := rfl
  have unharmed : Meets (Replay.step StdVector.small) FailsUnharmed ⟨oneRow,[]⟩
      [.add (some 7),.add none] := by
    refine ⟨?_,fun next moved => ?_⟩
    · rintro ⟨e,after,raised⟩
      cases raised
    · cases Option.some.inj (filled.symm.trans moved)
      have held : oneFilled.indexRing.held = [0] := by decide
      refine ⟨fun _ => ⟨by decide,?_⟩,fun _ _ => trivial⟩
      rw [held]
      exact List.forall_mem_singleton.mpr rfl
  refine ⟨s,run,?_⟩
  have rows := tells unharmed
  cases Option.some.inj run
  exact ⟨rfl,rfl,rows⟩

theorem failedAddLeavesIndex :
    (add (none : Option CInt)).run twoRows
      = .error (.parent "could not broadcast input array") ⟨twoRows.parent,⟨2,[0,0,0],0,1⟩⟩ ∧
    twoRows.indexRing.held = [] ∧ (⟨2,[0,0,0],0,1⟩ : RingBuffer).held = [0] ∧
    (arrays 2).size twoRows.parent = 0 ∧
    (batchInds StdVector.small (Generator.always 0) 1).run
      (⟨twoRows.parent,⟨2,[0,0,0],0,1⟩⟩ : FastReplayBuffer (arrays 2))
      = .ok [0] ⟨twoRows.parent,⟨2,[0,0,0],0,1⟩⟩ :=
  ⟨rfl,by decide,by decide,rfl,rfl⟩

end FastReplay
