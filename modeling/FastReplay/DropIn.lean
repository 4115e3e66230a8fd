import Mathlib.Data.List.GetD
import FastReplay.FailedAdd

/-! FastReplayBuffer in the place of its parent class. -/
namespace FastReplay
open GuardedRun SlidingWindow FastReplayBuffer
open Replay (AddReturns)

variable {P : ReplayBuffer} {std : StdVector} {fb : FastReplayBuffer P} {k : Nat}

/- The parent class by itself. A raising add may have changed its state as well. -/
def ReplayBuffer.step (s : P.State) : ReplayOp P → Option P.State
  | .add x => match (P.add x).run s with
    | .ok _ t | .error _ t => some t
  | .reset => some (P.reset s)
  | .sample _ _ _ => some s

def plainBatches (P : ReplayBuffer) (s : P.State) (batchSize : Nat) : Set (List CInt) :=
  {inds | inds.length = batchSize ∧ ∀ i ∈ inds, ∃ r, r < P.size s ∧ i = Int32.ofNat r}

def offeredBatches (std : StdVector) (fb : FastReplayBuffer P) (batchSize : SizeT) : Set (List CInt) :=
  {inds | ∃ gen after, (batchInds std gen batchSize).run fb = .ok inds after}

theorem parentStep {fresh : RingBuffer} (made : newRing P std = .ok fresh) (fits : P.bufferSize ≤ 2^31)
    (s : Replay P) (op : ReplayOp P) (h : Tracked s.buffer) :
    ∃ t, Replay.step std s op = some t ∧ ReplayBuffer.step s.buffer.parent op = some t.buffer.parent ∧
      Tracked t.buffer := by
  obtain ⟨t,moved,kept⟩ := stepTracked made (by omega) s op h
  refine ⟨t,moved,?_,kept⟩
  cases op with
  | add x =>
    have is := addIs h.ring h.capacity x
    simp only [Replay.step] at moved
    generalize (add x).run s.buffer = result at is moved
    cases is with
    | stored small added stores capacity =>
      simp only [ReplayBuffer.step,added]
      cases Option.some.inj moved
      rfl
    | raised small added stores capacity =>
      simp only [ReplayBuffer.step,added]
      cases Option.some.inj moved
      rfl
    | refused large stores capacity =>
      have below := h.pos
      omega
  | reset =>
    rw [resetStep made s] at moved
    cases Option.some.inj moved
    rfl
  | sample gen batchSize env =>
    rw [sampleStep h.ring std gen batchSize env] at moved
    cases Option.some.inj moved
    rfl

def Generator.picking (entries inds : List CInt) : Generator :=
  ⟨fun hi i => min hi (entries.idxOf (inds.getD i 0)),fun _ _ => Nat.min_le_left _ _⟩

theorem pickingDraws {entries inds : List CInt} (among : ∀ i ∈ inds, i ∈ entries) :
    (List.range inds.length).map
      (fun i => entries.getD ((Generator.picking entries inds).draw (entries.length-1) i) 0) = inds := by
  refine List.ext_getElem (by simp) fun i _ inside => ?_
  have mem := among _ (List.getElem_mem inside)
  have below := List.idxOf_lt_length_iff.mpr mem
  have small : min (entries.length-1) (entries.idxOf inds[i]) = entries.idxOf inds[i] := by omega
  simp only [List.getElem_map,List.getElem_range,Generator.picking]
  rw [List.getD_eq_getElem inds 0 inside,small,List.getD_eq_getElem entries 0 below]
  exact List.getElem_idxOf below

theorem InStep.entriesMem (h : InStep fb k) (i : CInt) :
    i ∈ (places P.bufferSize k).map Int32.ofNat ↔ ∃ r, r < P.size fb.parent ∧ i = Int32.ofNat r := by
  rw [h.size]
  constructor
  · intro mem
    obtain ⟨r,place,rfl⟩ := List.mem_map.mp mem
    exact ⟨r,placesBelow P.positive place,rfl⟩
  · intro row
    obtain ⟨r,below,rfl⟩ := row
    exact List.mem_map.mpr ⟨r,(placesMem P.positive).mpr below,rfl⟩

theorem InStep.batches (h : InStep fb k) (nonempty : 0 < k) {batchSize : SizeT}
    (short : batchSize.toNat ≤ std.maxWords) :
    offeredBatches std fb batchSize = plainBatches P fb.parent batchSize.toNat := by
  have some := placesNonempty P.positive nonempty
  have long : ¬ std.maxWords < batchSize.toNat := by omega
  ext inds
  constructor
  · intro offered
    obtain ⟨gen,after,run⟩ := offered
    rw [batchIndsRun h.ring some gen long] at run
    cases run
    refine ⟨by simp,fun i mem => ?_⟩
    obtain ⟨draw,_,rfl⟩ := List.mem_map.mp mem
    have inside := gen.inRange (((places P.bufferSize k).map Int32.ofNat).length-1) draw
    have length := List.length_pos_iff.mpr some
    rw [← h.entriesMem,List.getD_eq_getElem _ 0 (by omega)]
    exact List.getElem_mem _
  · intro rows
    obtain ⟨length,rows⟩ := rows
    have among : ∀ i ∈ inds, i ∈ (places P.bufferSize k).map Int32.ofNat :=
      fun i mem => (h.entriesMem i).mpr (rows i mem)
    have run := batchIndsRun h.ring some
      (Generator.picking ((places P.bufferSize k).map Int32.ofNat) inds) long
    rw [← length,pickingDraws among] at run
    exact ⟨_,_,run⟩

theorem dropIn (P : ReplayBuffer) (std : StdVector) (fb : FastReplayBuffer P)
    (made : construct P std = .ok fb) (fits : P.bufferSize ≤ 2^31) (ops : List (ReplayOp P)) :
    ∃ s, exec (Replay.step std) ⟨fb,[]⟩ ops = some s ∧
      exec ReplayBuffer.step P.init ops = some s.buffer.parent ∧
      (∀ x, ∃ ring, (add x).run s.buffer = match (P.add x).run s.buffer.parent with
        | .ok _ parent => .ok () ⟨parent,ring⟩
        | .error e parent => .error (.parent e) ⟨parent,ring⟩) ∧
      (Meets (Replay.step std) AddReturns ⟨fb,[]⟩ ops → ∀ batchSize : SizeT,
        batchSize.toNat ≤ std.maxWords → 0 < P.size s.buffer.parent →
        offeredBatches std s.buffer batchSize = plainBatches P s.buffer.parent batchSize.toNat) := by
  obtain ⟨fresh,first⟩ := startInStep made fits
  obtain ⟨_,parent⟩ := constructed made
  have related : (⟨fb,[]⟩ : Replay P).buffer.parent = P.init ∧ Tracked (⟨fb,[]⟩ : Replay P).buffer :=
    ⟨parent,first.tracked⟩
  have always : Meets (Replay.step std) (fun _ _ => True) ⟨fb,[]⟩ ops :=
    meetsAlways (fun _ _ _ => trivial) _
  have lockstep : ∀ (s : Replay P) p op, s.buffer.parent = p ∧ Tracked s.buffer → True →
      ∃ s' p', Replay.step std s op = some s' ∧ ReplayBuffer.step p op = some p' ∧
        s'.buffer.parent = p' ∧ Tracked s'.buffer := by
    intro s p op related _
    obtain ⟨rfl,tracked⟩ := related
    obtain ⟨t,moved,plain,kept⟩ := parentStep fresh fits s op tracked
    exact ⟨t,_,moved,plain,rfl,kept⟩
  obtain ⟨s,p,run,plain,rfl,tracked⟩ := simulated lockstep related always
  refine ⟨s,run,plain,fun x => ?_,fun returns batchSize short nonempty => ?_⟩
  · have positive : 0 < s.buffer.indexRing.capacity.toNat := by
      rw [tracked.capacity]
      exact P.positive
    obtain ⟨ring,_,_,added⟩ := FastReplayBuffer.addRun tracked.ring positive
      (Nat.lt_of_lt_of_le tracked.pos fits) x
    exact ⟨ring,added⟩
  · obtain ⟨t,ran,h⟩ := runInStep made fits returns
    cases Option.some.inj (ran.symm.trans run)
    refine h.batches ?_ short
    rw [h.size] at nonempty
    exact Nat.lt_of_lt_of_le nonempty (keptTotal _ _)

theorem twoAddsReturn : Meets (Replay.step StdVector.small) AddReturns ⟨twoRows,[]⟩
    [.add (some 7),.add (some 8)] := by
  have three : Meets (Replay.step StdVector.small) AddReturns ⟨twoRows,[]⟩
      ([.add (some 7),.add (some 8)] ++ [.add (some 9)]) := threeAddsReturn
  exact (meetsAppend.mp three).1

theorem dropInAtTwo : ∃ s,
    exec (Replay.step StdVector.small) ⟨twoRows,[]⟩ [.add (some 7),.add (some 8)] = some s ∧
    [1,1] ∈ offeredBatches StdVector.small s.buffer 2 := by
  obtain ⟨s,run,_,_,batches⟩ := dropIn (arrays 2) StdVector.small twoRows rfl (by decide)
    [.add (some 7),.add (some 8)]
  refine ⟨s,run,?_⟩
  cases Option.some.inj run
  rw [batches twoAddsReturn 2 (by decide) (by decide)]
  exact ⟨rfl,fun i mem => ⟨1,by decide,by simpa using mem⟩⟩

end FastReplay
