import FastReplay.GuardedRun
import FastReplay.QueueCalls
import FastReplay.ReplayBuffer
import FastReplay.SlidingWindow

/-! The ring's indices beside the parent's pos and full: one bookkeeping modulo
N+1, the other modulo N. -/
namespace FastReplay.FastReplayBuffer
open GuardedRun SlidingWindow

variable {P : ReplayBuffer} {α : Type} {fb : FastReplayBuffer P} {entries : List CInt}

theorem onRingRun {call : RingBuffer.Call α} {a : α} {ring : RingBuffer}
    (run : call.run fb.indexRing = .ok a ring) :
    (onRing call : Call P α).run fb = .ok a { fb with indexRing := ring } := by
  simp only [onRing,EStateM.run] at run ⊢
  rw [run]

theorem onRingFault {call : RingBuffer.Call α} {fault : Fault} {ring : RingBuffer}
    (run : call.run fb.indexRing = .error fault ring) :
    (onRing call : Call P α).run fb = .error (.ring fault) { fb with indexRing := ring } := by
  simp only [onRing,EStateM.run] at run ⊢
  rw [run]

theorem ofExceptRun (r : Except (PyError P.Error) α) :
    (MonadExcept.ofExcept r : Call P α).run fb = match r with
      | .ok a => .ok a fb
      | .error e => .error e fb := by
  cases r <;> rfl

theorem onParentRun (call : EStateM P.Error P.State α) :
    (onParent call : Call P α).run fb = match call.run fb.parent with
      | .ok a parent => .ok a { fb with parent := parent }
      | .error e parent => .error (.parent e) { fb with parent := parent } := rfl

theorem evictRoom (h : Represents fb.indexRing entries)
    (room : entries.length ≠ fb.indexRing.capacity.toNat) : evict.run fb = .ok none fb := by
  obtain ⟨n,sized,word⟩ := h.sizeRun
  have apart : n ≠ fb.indexRing.capacity := fun same => room (by rw [← word,same])
  have capacity : RingBuffer.getCapacity.run fb.indexRing = .ok fb.indexRing.capacity fb.indexRing := rfl
  simp only [evict,EStateM.run_bind,onRingRun sized,onRingRun capacity,if_neg apart,EStateM.run_pure]

theorem evictFull {v : CInt} {rest : List CInt} (h : Represents fb.indexRing (v::rest))
    (full : (v::rest).length = fb.indexRing.capacity.toNat) :
    ∃ ring, evict.run fb = .ok (some v) { fb with indexRing := ring } ∧ Represents ring rest ∧
      ring.capacity = fb.indexRing.capacity := by
  obtain ⟨n,sized,word⟩ := h.sizeRun
  obtain ⟨ring,popped,stores,capacitySame⟩ := h.popValueRun
  have same : n = fb.indexRing.capacity := UInt64.toNat_inj.mp (word.trans full)
  have capacity : RingBuffer.getCapacity.run fb.indexRing = .ok fb.indexRing.capacity fb.indexRing := rfl
  refine ⟨ring,?_,stores,capacitySame⟩
  simp only [evict,EStateM.run_bind,onRingRun sized,onRingRun capacity,if_pos same,onRingRun popped]

theorem recordRun (s : P.State) {before : RingBuffer} (h : Represents before entries)
    (room : entries.length < before.capacity.toNat) (small : P.pos s < 2^31) :
    ∃ ring, record.run ⟨s,before⟩ = .ok true ⟨s,ring⟩ ∧
      Represents ring (entries ++ [Int32.ofNat (P.pos s)]) ∧ ring.capacity = before.capacity := by
  obtain ⟨ring,pushed,stores,capacitySame⟩ := h.pushRun room (Int32.ofNat (P.pos s))
  have position : (asInt (P.pos s) : Except (PyError P.Error) CInt) = .ok (Int32.ofNat (P.pos s)) :=
    if_pos small
  refine ⟨ring,?_,stores,capacitySame⟩
  simp only [record,EStateM.run_bind,EStateM.run_get,position,ofExceptRun]
  exact onRingRun pushed

def turnOver (n : Nat) (entries : List CInt) (v : CInt) : List CInt :=
  if entries.length = n then entries.tail ++ [v] else entries ++ [v]

def evicted (n : Nat) (entries : List CInt) : Option CInt :=
  if entries.length = n then entries.head? else none

def withRoom (n : Nat) (entries : List CInt) : List CInt :=
  if entries.length = n then entries.tail else entries

theorem turnOverRoom (n : Nat) (entries : List CInt) (v : CInt) :
    turnOver n entries v = withRoom n entries ++ [v] := by
  unfold turnOver withRoom
  split <;> rfl

theorem evictRun (h : Represents fb.indexRing entries) (positive : 0 < fb.indexRing.capacity.toNat) :
    ∃ ring,
      evict.run fb = .ok (evicted fb.indexRing.capacity.toNat entries) { fb with indexRing := ring } ∧
      Represents ring (withRoom fb.indexRing.capacity.toNat entries) ∧
      ring.capacity = fb.indexRing.capacity := by
  unfold withRoom evicted
  by_cases full : entries.length = fb.indexRing.capacity.toNat
  · simp only [if_pos full]
    cases entries with
    | nil => simp at full; omega
    | cons v rest => exact evictFull h full
  · simp only [if_neg full]
    exact ⟨fb.indexRing,evictRoom h full,h,rfl⟩

theorem withRoomShort {n : Nat} (positive : 0 < n) (most : entries.length ≤ n) :
    (withRoom n entries).length < n := by
  unfold withRoom
  split
  · rw [List.length_tail]
    omega
  · omega

theorem ringPart (h : Represents fb.indexRing entries) (positive : 0 < fb.indexRing.capacity.toNat)
    (small : P.pos fb.parent < 2^31) :
    ∃ mid ring,
      evict.run fb = .ok (evicted fb.indexRing.capacity.toNat entries) { fb with indexRing := mid } ∧
      record.run { fb with indexRing := mid } = .ok true { fb with indexRing := ring } ∧
      Represents ring
        (turnOver fb.indexRing.capacity.toNat entries (Int32.ofNat (P.pos fb.parent))) ∧
      ring.capacity = fb.indexRing.capacity := by
  obtain ⟨mid,popped,midStores,midCapacity⟩ := evictRun h positive
  have short := withRoomShort positive h.layout.fits
  obtain ⟨ring,pushed,stores,capacity⟩ := recordRun fb.parent midStores (midCapacity ▸ short) small
  rw [turnOverRoom]
  exact ⟨mid,ring,popped,pushed,stores,capacity.trans midCapacity⟩

theorem addRun (h : Represents fb.indexRing entries) (positive : 0 < fb.indexRing.capacity.toNat)
    (small : P.pos fb.parent < 2^31) (x : P.Transition) :
    ∃ ring, Represents ring
        (turnOver fb.indexRing.capacity.toNat entries (Int32.ofNat (P.pos fb.parent))) ∧
      ring.capacity = fb.indexRing.capacity ∧
      (add x).run fb = match (P.add x).run fb.parent with
        | .ok _ parent => .ok () ⟨parent,ring⟩
        | .error e parent => .error (.parent e) ⟨parent,ring⟩ := by
  obtain ⟨mid,ring,popped,pushed,stores,capacity⟩ := ringPart h positive small
  refine ⟨ring,stores,capacity,?_⟩
  simp only [add,EStateM.run_bind,popped,pushed,onParentRun]
  cases (P.add x).run fb.parent <;> rfl

theorem addRefused (h : Represents fb.indexRing entries) (positive : 0 < fb.indexRing.capacity.toNat)
    (large : 2^31 ≤ P.pos fb.parent) (x : P.Transition) :
    ∃ ring, Represents ring (withRoom fb.indexRing.capacity.toNat entries) ∧
      ring.capacity = fb.indexRing.capacity ∧
      (add x).run fb = .error .typeError { fb with indexRing := ring } := by
  obtain ⟨ring,popped,stores,capacity⟩ := evictRun h positive
  have refused : (asInt (P.pos fb.parent) : Except (PyError P.Error) CInt) = .error .typeError :=
    if_neg (by omega)
  have stopped : record.run { fb with indexRing := ring }
      = .error .typeError { fb with indexRing := ring } := by
    simp only [record,EStateM.run_bind,EStateM.run_get,refused,ofExceptRun]
  exact ⟨ring,stores,capacity,by simp only [add,EStateM.run_bind,popped,stopped]⟩

inductive AddIs (fb : FastReplayBuffer P) (entries : List CInt) (x : P.Transition) :
    EStateM.Result (PyError P.Error) (FastReplayBuffer P) Unit → Prop where
  | stored {parent ring} (small : P.pos fb.parent < 2^31)
      (added : (P.add x).run fb.parent = .ok () parent)
      (stores : Represents ring (turnOver P.bufferSize entries (Int32.ofNat (P.pos fb.parent))))
      (capacity : ring.capacity = fb.indexRing.capacity) : AddIs fb entries x (.ok () ⟨parent,ring⟩)
  | raised {e parent ring} (small : P.pos fb.parent < 2^31)
      (added : (P.add x).run fb.parent = .error e parent)
      (stores : Represents ring (turnOver P.bufferSize entries (Int32.ofNat (P.pos fb.parent))))
      (capacity : ring.capacity = fb.indexRing.capacity) :
      AddIs fb entries x (.error (.parent e) ⟨parent,ring⟩)
  | refused {ring} (large : 2^31 ≤ P.pos fb.parent)
      (stores : Represents ring (withRoom P.bufferSize entries))
      (capacity : ring.capacity = fb.indexRing.capacity) :
      AddIs fb entries x (.error .typeError ⟨fb.parent,ring⟩)

theorem addIs (h : Represents fb.indexRing entries)
    (capacity : fb.indexRing.capacity.toNat = P.bufferSize) (x : P.Transition) :
    AddIs fb entries x ((add x).run fb) := by
  have positive : 0 < fb.indexRing.capacity.toNat := by
    rw [capacity]
    exact P.positive
  rcases Nat.lt_or_ge (P.pos fb.parent) (2^31) with small | large
  · obtain ⟨ring,stores,same,run⟩ := addRun h positive small x
    rw [capacity] at stores
    rw [run]
    cases added : (P.add x).run fb.parent with
    | ok u parent => exact .stored small added stores same
    | error e parent => exact .raised small added stores same
  · obtain ⟨ring,stores,same,run⟩ := addRefused h positive large x
    rw [capacity] at stores
    rw [run]
    exact .refused large stores same

theorem pickOne {view : List CInt} {i : Int64} {n : Nat} (same : i.toInt = n)
    (inside : n < view.length) :
    (pick view i : Except (PyError P.Error) CInt) = .ok (view.getD n 0) := by
  have natural : ¬ (n : Int) < 0 := by omega
  simp [pick,same,natural,inside,List.getD]

theorem pickAll {view : List CInt} {inds : List Int64} {slots : List Nat}
    (same : inds.map Int64.toInt = slots.map Int.ofNat) (inside : ∀ n ∈ slots, n < view.length) :
    (inds.mapM (pick view) : Except (PyError P.Error) (List CInt))
      = .ok (slots.map fun n => view.getD n 0) := by
  induction inds generalizing slots with
  | nil =>
    cases slots with
    | nil => rfl
    | cons n rest => simp at same
  | cons i inds ih =>
    cases slots with
    | nil => simp at same
    | cons n rest =>
      simp only [List.map_cons,List.cons.injEq] at same
      have first : (pick view i : Except (PyError P.Error) CInt) = .ok (view.getD n 0) :=
        pickOne same.1 (inside n List.mem_cons_self)
      have later := ih same.2 fun m mem => inside m (List.mem_cons_of_mem _ mem)
      simp [List.mapM_cons,first,later,bind,Except.bind,pure,Except.pure]

theorem batchIndsEmpty (h : Represents fb.indexRing []) (std : StdVector) (gen : Generator)
    (batchSize : SizeT) : (batchInds std gen batchSize).run fb
      = .error (.ring (.raised (.runtimeError "sample_indices: buffer is empty"))) fb := by
  have sampled := h.sampleInt64Run std gen batchSize
  have empty : fb.indexRing.exact.size = 0 := h.stores.size
  simp only [ExactRing.sampleIndices,if_pos empty] at sampled
  simp only [batchInds,EStateM.run_bind,onRingRun h.asarrayRun,onRingFault sampled]

theorem batchIndsLong (h : Represents fb.indexRing entries) (nonempty : entries ≠ []) {std : StdVector}
    (gen : Generator) {batchSize : SizeT} (long : std.maxWords < batchSize.toNat) :
    (batchInds std gen batchSize).run fb = .error (.ring (.raised .lengthError)) fb := by
  have sampled := h.sampleInt64Run std gen batchSize
  rw [h.sampleIs nonempty,if_pos long] at sampled
  simp only [batchInds,EStateM.run_bind,onRingRun h.asarrayRun,onRingFault sampled]

theorem batchIndsRun (h : Represents fb.indexRing entries) (nonempty : entries ≠ []) {std : StdVector}
    (gen : Generator) {batchSize : SizeT} (short : ¬ std.maxWords < batchSize.toNat) :
    (batchInds std gen batchSize).run fb = .ok ((List.range batchSize.toNat).map fun i =>
      entries.getD (gen.draw (entries.length-1) i) 0) fb := by
  have sampled := h.sampleInt64Run std gen batchSize
  have is := h.sampleIs nonempty std gen batchSize.toNat
  rw [if_neg short] at is
  have below := h.slotsBelow is
  rw [is] at sampled
  obtain ⟨inds,run,same⟩ := sampled
  have picked : (inds.mapM (pick fb.indexRing.buf) : Except (PyError P.Error) (List CInt)) = _ :=
    pickAll same below
  simp only [batchInds,EStateM.run_bind,onRingRun h.asarrayRun,onRingRun run,ofExceptRun,picked,
    List.map_map]
  congr 1
  refine List.map_congr_left fun i _ => ?_
  have drawn := gen.inRange (entries.length-1) i
  have some := List.length_pos_iff.mpr nonempty
  have live := h.layout.live (gen.draw (entries.length-1) i) (by omega)
  simp only [Function.comp,Represents.slot,List.getD,live]

theorem batchIndsKeeps (h : Represents fb.indexRing entries) (std : StdVector) (gen : Generator)
    (batchSize : SizeT) :
    (∃ inds, (batchInds std gen batchSize).run fb = .ok inds fb) ∨
      ∃ e, e.undefined = false ∧ (batchInds std gen batchSize).run fb = .error e fb := by
  by_cases empty : entries = []
  · subst empty
    exact .inr ⟨_,rfl,batchIndsEmpty h std gen batchSize⟩
  by_cases long : std.maxWords < batchSize.toNat
  · exact .inr ⟨_,rfl,batchIndsLong h empty gen long⟩
  · exact .inl ⟨_,batchIndsRun h empty gen long⟩

theorem sampleOk {std gen batchSize inds} {env : P.Env}
    (run : (batchInds std gen batchSize).run fb = .ok inds fb) :
    (sample std gen batchSize env).run fb = match P.getSamples fb.parent inds env with
      | .ok batch => .ok batch fb
      | .error e => .error (.parent e) fb := by
  simp only [sample,EStateM.run_bind,run,EStateM.run_get,ofExceptRun]
  cases P.getSamples fb.parent inds env <;> rfl

theorem sampleKeeps (h : Represents fb.indexRing entries) (std : StdVector) (gen : Generator)
    (batchSize : SizeT) (env : P.Env) :
    (∃ batch, (sample std gen batchSize env).run fb = .ok batch fb) ∨
      ∃ e, e.undefined = false ∧ (sample std gen batchSize env).run fb = .error e fb := by
  rcases batchIndsKeeps h std gen batchSize with ⟨inds,run⟩ | ⟨e,defined,run⟩
  · rw [sampleOk run]
    cases P.getSamples fb.parent inds env with
    | ok batch => exact .inl ⟨batch,rfl⟩
    | error e => exact .inr ⟨.parent e,rfl,rfl⟩
  · exact .inr ⟨e,defined,by simp only [sample,EStateM.run_bind,run]⟩

theorem newRingFresh {std ring} (made : newRing P std = .ok ring) (noWrap : P.bufferSize+1 < 2^64) :
    Represents ring [] ∧ ring.capacity.toNat = P.bufferSize := by
  have word : (asSizeT P.bufferSize : Except (PyError P.Error) SizeT)
      = .ok (UInt64.ofNat P.bufferSize) := if_pos (by omega)
  have size : (UInt64.ofNat P.bufferSize).toNat = P.bufferSize :=
    UInt64.toNat_ofNat_of_lt (by rw [UInt64.size]; omega)
  simp only [newRing,word,bind,Except.bind] at made
  cases result : RingBuffer.construct std (UInt64.ofNat P.bufferSize) with
  | error fault => simp [result,Except.mapError] at made
  | ok fresh =>
    simp only [result,Except.mapError,Except.ok.injEq] at made
    subst made
    obtain ⟨admitted,exactRing⟩ := RingBuffer.constructAdmitted result (by omega)
    refine ⟨⟨admitted,?_⟩,?_⟩
    · rw [exactRing]
      exact ExactRing.constructStores _
    · rw [(RingBuffer.constructed result).1]
      exact size

theorem constructed {std fb} (made : construct P std = .ok fb) :
    newRing P std = .ok fb.indexRing ∧ fb.parent = P.init := by
  simp only [construct,bind,Except.bind] at made
  split at made <;> try contradiction
  rename_i ring result
  cases Except.ok.inj made
  exact ⟨result,rfl⟩

theorem resetRun {std ring} (made : newRing P std = .ok ring) (fb : FastReplayBuffer P) :
    (reset std).run fb = .ok () ⟨P.reset fb.parent,ring⟩ := by
  simp only [reset,EStateM.run_bind,EStateM.run_modify,ofExceptRun,made]

end FastReplay.FastReplayBuffer
