import Mathlib.Data.Set.Function
import Mathlib.Order.Interval.Set.Defs
import FastReplay.StoreHistory
import FastReplay.StepInStep

/-! sample with optimize_memory_usage off: every draw of the generator is one of the
last transitions stored, and each of them is one draw. -/
namespace FastReplay
open GuardedRun SlidingWindow FastReplayBuffer
open Replay (AddReturns)

structure Storage (P : ReplayBuffer) where
  row : P.State → Nat → P.Transition
  rows : P.Batch → List P.Transition
  addWrites : ∀ x s t, P.pos s < P.bufferSize → (P.add x).run s = .ok () t →
    row t (P.pos s) = x ∧ ∀ i, i < P.bufferSize → i ≠ P.pos s → row t i = row s i
  gathers : ∀ s (inds : List CInt) env, (∀ i ∈ inds, 0 ≤ i.toInt ∧ i.toInt < P.bufferSize) →
    ∃ batch, P.getSamples s inds env = .ok batch ∧
      rows batch = inds.map fun i => row s i.toInt.toNat

variable {P : ReplayBuffer} {std : StdVector} {st : Storage P}

structure Retained (st : Storage P) (s : Replay P) : Prop where
  inStep : InStep s.buffer s.stored.length
  rows : ∀ j, s.stored.length - kept P.bufferSize s.stored.length ≤ j → j < s.stored.length →
    s.stored[j]? = some (st.row s.buffer.parent (j % P.bufferSize))

theorem Retained.added {s : Replay P} {x : P.Transition} {parent : P.State} {ring : RingBuffer}
    (h : Retained st s) (added : (P.add x).run s.buffer.parent = .ok () parent)
    (inStep : InStep (⟨parent,ring⟩ : FastReplayBuffer P) (s.stored ++ [x]).length) :
    Retained st ⟨⟨parent,ring⟩,s.stored ++ [x]⟩ := by
  have pos := h.inStep.pos
  obtain ⟨written,others⟩ := st.addWrites x _ _ h.inStep.posBelow added
  refine ⟨inStep,?_⟩
  intro j least below
  simp only [List.length_append,List.length_singleton] at least below
  rcases Nat.lt_or_ge j s.stored.length with old | new
  · have kept' : s.stored.length - kept P.bufferSize s.stored.length ≤ j := by
      unfold kept at least ⊢
      omega
    have lap : s.stored.length < j + P.bufferSize := by
      unfold kept at least
      omega
    rw [List.getElem?_append_left old,h.rows j kept' old]
    refine congrArg some (others _ (Nat.mod_lt _ P.positive) ?_).symm
    rw [pos]
    intro same
    have := CyclicIndex.sameSlot same (by omega) (by omega)
    omega
  · have last : j = s.stored.length := by omega
    subst last
    rw [AppendLog.latest,← pos,written]

theorem stepRetained {fresh : RingBuffer} (made : newRing P std = .ok fresh) (fits : P.bufferSize ≤ 2^31)
    (s : Replay P) (op : ReplayOp P) (h : Retained st s) (returns : AddReturns s op) :
    ∃ t, Replay.step std s op = some t ∧ Retained st t := by
  obtain ⟨t,moved,inStep⟩ := stepInStep made fits s op h.inStep returns
  refine ⟨t,moved,?_⟩
  cases op with
  | add x =>
    obtain ⟨ring,_,_,run⟩ := h.inStep.addRun fits x
    obtain ⟨fb,returned⟩ := returns
    cases added : (P.add x).run s.buffer.parent with
    | error e parent => simp [run,added] at returned
    | ok u parent =>
      simp only [Replay.step,run,added] at moved
      cases Option.some.inj moved
      exact h.added added inStep
  | reset =>
    rw [resetStep made] at moved
    cases Option.some.inj moved
    exact ⟨inStep,fun j _ below => absurd below (Nat.not_lt_zero j)⟩
  | sample gen batchSize env =>
    rw [sampleStep h.inStep.ring] at moved
    cases Option.some.inj moved
    exact h

theorem runRetained (st : Storage P) {fb : FastReplayBuffer P} (made : construct P std = .ok fb)
    (fits : P.bufferSize ≤ 2^31) {ops : List (ReplayOp P)}
    (returns : Meets (Replay.step std) AddReturns ⟨fb,[]⟩ ops) :
    ∃ s, exec (Replay.step std) ⟨fb,[]⟩ ops = some s ∧ Retained st s := by
  obtain ⟨fresh,start⟩ := startInStep made fits
  exact reaches (fun s op => stepRetained fresh fits s op) returns
    ⟨start,fun j _ below => absurd below (Nat.not_lt_zero j)⟩

theorem Retained.sampled {s : Replay P} (h : Retained st s) (fits : P.bufferSize ≤ 2^31)
    (nonempty : 0 < s.stored.length) (gen : Generator) {batchSize : SizeT} (env : P.Env)
    (short : ¬ std.maxWords < batchSize.toNat) :
    ∃ batch, (sample std gen batchSize env).run s.buffer = .ok batch s.buffer ∧
      (st.rows batch).map some = (List.range batchSize.toNat).map fun i =>
        s.stored[s.stored.length - kept P.bufferSize s.stored.length +
          gen.draw (kept P.bufferSize s.stored.length - 1) i]? := by
  have run := h.inStep.batchInds nonempty gen short
  have below : ∀ j, j % P.bufferSize < P.bufferSize := fun j => Nat.mod_lt j P.positive
  obtain ⟨batch,gathered,rows⟩ := st.gathers s.buffer.parent ((List.range batchSize.toNat).map
    fun i => Int32.ofNat (drawnAdd P.bufferSize s.stored.length gen i % P.bufferSize)) env (by
      intro index mem
      obtain ⟨i,_,rfl⟩ := List.mem_map.mp mem
      rw [indexWord fits (below _)]
      exact ⟨Int.natCast_nonneg _,Int.ofNat_lt.mpr (below _)⟩)
  refine ⟨batch,by rw [sampleOk run,gathered],?_⟩
  rw [rows,List.map_map,List.map_map]
  refine List.map_congr_left fun i _ => ?_
  have drawn := drawnBelow P.positive nonempty gen i
  have total := keptTotal P.bufferSize s.stored.length
  simp only [Function.comp,indexWord fits (below _),Int.toNat_natCast]
  exact (h.rows _ (by unfold drawnAdd; omega) (by unfold drawnAdd; omega)).symm

theorem offsetsBijective (k m : Nat) (total : m ≤ k) :
    Set.BijOn (fun d => k-m+d) (Set.Iio m) (Set.Ico (k-m) k) := by
  refine ⟨?_,?_,?_⟩
  · intro d below
    rw [Set.mem_Iio] at below
    exact Set.mem_Ico.mpr ⟨by dsimp only; omega,by dsimp only; omega⟩
  · intro c _ d _ same
    dsimp only at same
    omega
  · intro j inside
    rw [Set.mem_Ico] at inside
    refine ⟨j-(k-m),Set.mem_Iio.mpr (by omega),?_⟩
    dsimp only
    omega

theorem samplesRetained (P : ReplayBuffer) (st : Storage P) (std : StdVector) (fb : FastReplayBuffer P)
    (made : construct P std = .ok fb) (fits : P.bufferSize ≤ 2^31) (ops : List (ReplayOp P))
    (returns : Meets (Replay.step std) AddReturns ⟨fb,[]⟩ ops) :
    ∃ s, exec (Replay.step std) ⟨fb,[]⟩ ops = some s ∧
      ∀ k m, k = s.stored.length → m = min k P.bufferSize → 1 ≤ k →
        (∀ gen batchSize env, if std.maxWords < batchSize.toNat then
            (sample std gen batchSize env).run s.buffer
              = .error (.ring (.raised .lengthError)) s.buffer
          else ∃ batch, (sample std gen batchSize env).run s.buffer = .ok batch s.buffer ∧
            (st.rows batch).map some = (List.range batchSize.toNat).map fun i =>
              s.stored[k - m + gen.draw (m-1) i]?) ∧
        Set.BijOn (fun d => k-m+d) (Set.Iio m) (Set.Ico (k-m) k) := by
  obtain ⟨s,run,h⟩ := runRetained st made fits returns
  refine ⟨s,run,?_⟩
  rintro k m rfl rfl nonempty
  refine ⟨fun gen batchSize env => ?_,offsetsBijective _ _ (Nat.min_le_left _ _)⟩
  split
  · rename_i long
    simp only [sample,EStateM.run_bind,batchIndsLong h.inStep.ring
      (placesNonempty P.positive nonempty) gen long]
  · rename_i short
    exact h.sampled fits nonempty gen env short

def arraysStorage (n : Nat) : Storage (arrays n) where
  row s i := s.rows i
  rows := id
  addWrites := by
    rintro (_ | v) s t below ⟨⟩
    exact ⟨Function.update_self _ _ _,fun i _ apart => Function.update_of_ne apart _ _⟩
  gathers := fun _ _ _ _ => ⟨_,rfl,rfl⟩

theorem samplesRetainedAtTwo :
    ∃ s, exec (Replay.step StdVector.small) ⟨twoRows,[]⟩
        [.add (some 7),.add (some 8),.add (some 9)] = some s ∧
      s.stored = [some 7,some 8,some 9] ∧
      ∃ batch, (sample StdVector.small ⟨fun hi i => min hi i,fun _ _ => Nat.min_le_left _ _⟩ 2 ()).run
        s.buffer = .ok batch s.buffer ∧ batch = [some 8,some 9] := by
  obtain ⟨s,run,drawn⟩ := samplesRetained (arrays 2) (arraysStorage 2)
    StdVector.small twoRows rfl (by decide) _ threeAddsReturn
  have stored : s.stored = [some 7,some 8,some 9] := by
    cases Option.some.inj run
    rfl
  obtain ⟨batch,sampled,rows⟩ := (drawn 3 2 (by rw [stored]; rfl) (by decide) (by decide)).1
    ⟨fun hi i => min hi i,fun _ _ => Nat.min_le_left _ _⟩ 2 ()
  refine ⟨s,run,stored,batch,sampled,?_⟩
  rw [stored] at rows
  exact List.map_injective_iff.mpr (Option.some_injective _) rows

end FastReplay
