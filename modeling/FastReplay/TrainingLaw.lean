import FastReplay.DropIn
import FastReplay.SampleLaw

/-! A program that calls a replay buffer, whatever it makes of the replies, when the
random engines of both sides draw independently and uniformly. optimize_memory_usage
is off. -/
namespace FastReplay
open SlidingWindow FastReplayBuffer InteractionLaw

inductive Request (P : ReplayBuffer) where
  | add (x : P.Transition)
  | reset
  | sample (batchSize : SizeT) (env : P.Env)

/- valueError: np.random.randint has no row to draw from. other: what the ring raises. -/
inductive Reply (P : ReplayBuffer) where
  | returned
  | batch (b : P.Batch)
  | raised (e : P.Error)
  | valueError
  | other (e : PyError P.Error)

variable {P : ReplayBuffer}

def Reply.gathered : Except P.Error P.Batch → Reply P
  | .ok b => .batch b
  | .error e => .raised e

namespace ReplayBuffer

def heard : EStateM.Result P.Error P.State Unit → Reply P × P.State
  | .ok _ s => (.returned,s)
  | .error e s => (.raised e,s)

noncomputable def serve (P : ReplayBuffer) (s : P.State) : Request P → PMF (Reply P × P.State)
  | .add x => PMF.pure (heard ((P.add x).run s))
  | .reset => PMF.pure (.returned,P.reset s)
  | .sample batchSize env =>
    if P.size s = 0 ∧ batchSize ≠ 0 then PMF.pure (.valueError,s)
    else (draws batchSize.toNat (P.size s-1)).map fun rows =>
      (.gathered (P.getSamples s (List.ofFn fun i => Int32.ofNat (rows i).val) env),s)

end ReplayBuffer

namespace FastReplayBuffer

def heard {α : Type} (reply : α → Reply P) :
    EStateM.Result (PyError P.Error) (FastReplayBuffer P) α → Reply P × FastReplayBuffer P
  | .ok a fb => (reply a,fb)
  | .error (.parent e) fb => (.raised e,fb)
  | .error e fb => (.other e,fb)

noncomputable def serve (std : StdVector) (fb : FastReplayBuffer P) :
    Request P → PMF (Reply P × FastReplayBuffer P)
  | .add x => PMF.pure (heard (fun _ => .returned) ((add x).run fb))
  | .reset => PMF.pure (heard (fun _ => .returned) ((reset std).run fb))
  | .sample batchSize env => (draws batchSize.toNat (fb.indexRing.exact.size-1)).map fun offsets =>
      heard .batch ((sample std (.drawn offsets) batchSize env).run fb)

end FastReplayBuffer

def stocked (heard : List (Request P × Reply P)) : Bool :=
  heard.foldl (fun has exchange => match exchange.1 with
    | .add _ => true
    | .reset => false
    | .sample _ _ => has) false

/- A transition the parent class stores; a sample of a buffer that is not empty, as long as
the vector of the indices can be. -/
def Request.Sound (std : StdVector) (heard : List (Request P × Reply P)) : Request P → Prop
  | .add x => ∀ s, ∃ t, (P.add x).run s = .ok () t
  | .reset => True
  | .sample batchSize _ => stocked heard = true ∧ batchSize.toNat ≤ std.maxWords

variable {std : StdVector} {fb : FastReplayBuffer P} {fresh : RingBuffer} {k : Nat}
  {heard : List (Request P × Reply P)}

theorem sampleHeard {gen : Generator} {batchSize : SizeT} {inds : List CInt} (env : P.Env)
    (run : (batchInds std gen batchSize).run fb = .ok inds fb) :
    FastReplayBuffer.heard .batch ((sample std gen batchSize env).run fb)
      = (.gathered (P.getSamples fb.parent inds env),fb) := by
  rw [sampleOk run]
  cases P.getSamples fb.parent inds env <;> rfl

def rowAt (n k : Nat) (offset : Fin (kept n k-1+1)) : Fin (kept n k-1+1) :=
  Fin.ofNat _ ((k-kept n k+offset) % n)

theorem rowAtPlaces {n : Nat} (positive : 0 < n) (nonempty : 0 < k) (offset : Fin (kept n k-1+1)) :
    (places n k)[offset.val]? = some (rowAt n k offset).val ∧
      (rowAt n k offset).val = (k-kept n k+offset) % n := by
  have below : 0 < kept n k := by unfold kept; omega
  have inside := offset.isLt
  have found := placesAt (n := n) (k := k) (i := offset.val) (by omega)
  have small := placesBelow positive (List.mem_of_getElem? found)
  have row : (rowAt n k offset).val = (k-kept n k+offset) % n := by
    rw [rowAt,Fin.val_ofNat]
    exact Nat.mod_eq_of_lt (by omega)
  rw [row]
  exact ⟨found,rfl⟩

theorem rowAtBijective {n : Nat} (positive : 0 < n) (nonempty : 0 < k) :
    Function.Bijective (rowAt n k) := by
  have below : 0 < kept n k := by unfold kept; omega
  refine Finite.injective_iff_bijective.mp fun a b same => ?_
  have foundA := (rowAtPlaces positive nonempty a).1
  have foundB := (rowAtPlaces positive nonempty b).1
  rw [same,← foundB] at foundA
  have inside : a.val < (places n k).length := by
    have := a.isLt
    rw [placesLength]
    omega
  exact Fin.ext ((List.getElem?_inj inside placesNodup).mp foundA)

theorem InStep.drawnBatch (h : InStep fb k) (nonempty : 0 < k) {batchSize : SizeT}
    (short : ¬ std.maxWords < batchSize.toNat)
    (offsets : Fin batchSize.toNat → Fin (kept P.bufferSize k-1+1)) :
    (FastReplayBuffer.batchInds std (.drawn offsets) batchSize).run fb
      = .ok (List.ofFn fun i => Int32.ofNat (rowAt P.bufferSize k (offsets i)).val) fb := by
  rw [h.batchInds nonempty _ short]
  congr 1
  refine List.ext_getElem (by simp) fun i _ inside => ?_
  rw [List.length_ofFn] at inside
  simp only [List.getElem_map,List.getElem_range,List.getElem_ofFn,drawnAdd,
    Generator.drawsRow offsets inside,(rowAtPlaces P.positive nonempty _).2]

theorem InStep.sampleLaw (h : InStep fb k) (some : 0 < k) {batchSize : SizeT} (env : P.Env)
    (short : batchSize.toNat ≤ std.maxWords) :
    (FastReplayBuffer.serve std fb (.sample batchSize env)).map
        (fun answer => (answer.1,answer.2.parent)) = P.serve fb.parent (.sample batchSize env) ∧
      ∀ answer ∈ (FastReplayBuffer.serve std fb (.sample batchSize env)).support, answer.2 = fb := by
  have positive := P.positive
  have long : ¬ std.maxWords < batchSize.toNat := by omega
  have count : fb.indexRing.exact.size = kept P.bufferSize k := by
    rw [h.ring.stores.size,List.length_map,placesLength]
  have filled : ¬ (P.size fb.parent = 0 ∧ batchSize ≠ 0) := by
    rw [h.size]
    unfold kept
    omega
  simp only [FastReplayBuffer.serve,ReplayBuffer.serve]
  rw [if_neg filled,count,h.size]
  have drawn := fun offsets => sampleHeard env (h.drawnBatch some long offsets)
  simp only [drawn,PMF.map_comp]
  constructor
  · have rows : draws batchSize.toNat (kept P.bufferSize k-1)
        = (draws batchSize.toNat (kept P.bufferSize k-1)).map
          (fun offsets i => rowAt P.bufferSize k (offsets i)) :=
      (uniformVectors (rowAtBijective P.positive some)).symm
    conv_rhs => rw [rows,PMF.map_comp]
    rfl
  · intro answer mem
    obtain ⟨_,_,rfl⟩ := (PMF.mem_support_map_iff _ _ _).mp mem
    rfl

structure Heard (fb : FastReplayBuffer P) (heard : List (Request P × Reply P)) (k : Nat) : Prop where
  inStep : InStep fb k
  filled : stocked heard = true → 0 < k

theorem Heard.serveLaw (made : newRing P std = .ok fresh) (fits : P.bufferSize ≤ 2^31)
    (h : Heard fb heard k) {request : Request P} (sound : request.Sound std heard) :
    (FastReplayBuffer.serve std fb request).map (fun answer => (answer.1,answer.2.parent))
        = P.serve fb.parent request ∧
      ∀ answer ∈ (FastReplayBuffer.serve std fb request).support,
        ∃ k', Heard answer.2 (heard ++ [(request,answer.1)]) k' := by
  cases request with
  | add x =>
    obtain ⟨ring,stores,capacity,run⟩ := h.inStep.addRun fits x
    obtain ⟨parent,added⟩ := sound fb.parent
    simp only [added] at run
    simp only [FastReplayBuffer.serve,ReplayBuffer.serve,run,added]
    refine ⟨PMF.pure_map _ _,fun answer mem => ?_⟩
    rw [PMF.mem_support_pure_iff] at mem
    rw [mem]
    exact ⟨_,h.inStep.returned added stores capacity,fun _ => Nat.succ_pos k⟩
  | reset =>
    obtain ⟨pos,full⟩ := P.resets fb.parent
    simp only [FastReplayBuffer.serve,ReplayBuffer.serve,resetRun made]
    refine ⟨PMF.pure_map _ _,fun answer mem => ?_⟩
    rw [PMF.mem_support_pure_iff] at mem
    rw [mem]
    exact ⟨0,freshInStep made fits pos full,fun asked => by simp [stocked] at asked⟩
  | sample batchSize env =>
    obtain ⟨law,unmoved⟩ := h.inStep.sampleLaw (h.filled sound.1) env sound.2
    refine ⟨law,fun answer mem => ⟨k,?_,fun _ => h.filled sound.1⟩⟩
    rw [unmoved answer mem]
    exact h.inStep

theorem sameTrainingLaw (P : ReplayBuffer) (std : StdVector) (fb : FastReplayBuffer P)
    (made : construct P std = .ok fb) (fits : P.bufferSize ≤ 2^31)
    (client : List (Request P × Reply P) → Option (Request P))
    (sound : ∀ heard request, client heard = some request → request.Sound std heard) (n : Nat) :
    (history (FastReplayBuffer.serve std) client n fb []).map (fun seen => (seen.1,seen.2.parent))
      = history P.serve client n P.init [] := by
  obtain ⟨fresh,start⟩ := startInStep made fits
  obtain ⟨_,parent⟩ := constructed made
  rw [← parent]
  exact projects (I := fun fb heard => ∃ k, Heard fb heard k) sound
    (fun fb heard request inStep asked => by
      obtain ⟨k,h⟩ := inStep
      exact (h.serveLaw fresh fits asked).1)
    (fun fb heard request inStep asked => by
      obtain ⟨k,h⟩ := inStep
      exact (h.serveLaw fresh fits asked).2)
    n ⟨0,start,fun asked => by simp [stocked] at asked⟩

def storeAndSample : List (Request (arrays 2) × Reply (arrays 2)) → Option (Request (arrays 2))
  | [] => some (.add (some (7 : CInt)))
  | [(.add _,_)] => some (.sample 1 ())
  | _ => none

theorem sameTrainingLawAtTwo :
    (history (FastReplayBuffer.serve StdVector.small) storeAndSample 3 twoRows []).map
        (fun seen => (seen.1,seen.2.parent))
      = history (arrays 2).serve storeAndSample 3 Arrays.blank [] := by
  refine sameTrainingLaw (arrays 2) StdVector.small twoRows rfl (by decide) _ ?_ 3
  intro heard request asked
  unfold storeAndSample at asked
  split at asked
  · cases Option.some.inj asked
    exact fun s => ⟨_,rfl⟩
  · cases Option.some.inj asked
    exact ⟨rfl,by decide⟩
  · contradiction

end FastReplay
