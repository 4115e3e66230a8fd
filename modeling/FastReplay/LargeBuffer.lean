import FastReplay.FailedAdd

/-! A buffer of more rows than an int counts. push takes an int, so pos stops fitting
at 2^31, and pybind11 refuses the call before the parent is asked. -/
namespace FastReplay
open GuardedRun SlidingWindow FastReplayBuffer

variable {P : ReplayBuffer} {std : StdVector} {fb : FastReplayBuffer P} {k : Nat}

def ParentStores (s : Replay P) : ReplayOp P → Prop
  | .add x => ∃ t, (P.add x).run s.buffer.parent = .ok () t
  | _ => True

theorem storesUnharmed {s : Replay P} {op : ReplayOp P} (h : Countable s) (stores : ParentStores s op) :
    FailsUnharmed s op := by
  cases op with
  | add x =>
    rintro ⟨e,fb,raised⟩
    obtain ⟨parent,returned⟩ := stores
    have is := addIs h.inStep.ring h.inStep.capacity x
    rw [raised] at is
    cases is with
    | raised small added stores capacity =>
      rw [returned] at added
      contradiction
  | reset => trivial
  | sample gen batchSize env => trivial

theorem InStep.smallPos (h : InStep fb k) (large : 2^31 < P.bufferSize) (few : k ≤ 2^31) :
    P.pos fb.parent = k := by
  rw [h.pos,Nat.mod_eq_of_lt (by omega)]

theorem InStep.refusedAt (h : InStep fb (2^31)) (large : 2^31 < P.bufferSize) (x : P.Transition) :
    (add x).run fb = .error .typeError fb := by
  have length : ((places P.bufferSize (2^31)).map Int32.ofNat).length ≠ fb.indexRing.capacity.toNat := by
    rw [List.length_map,placesLength,h.capacity]
    unfold kept
    omega
  have refused : (asInt (P.pos fb.parent) : Except (PyError P.Error) CInt) = .error .typeError := by
    rw [h.smallPos large (Nat.le_refl _)]
    exact if_neg (Nat.lt_irrefl _)
  have stopped : record.run fb = .error .typeError fb := by
    simp only [record,EStateM.run_bind,EStateM.run_get,refused,ofExceptRun]
  simp only [add,EStateM.run_bind,evictRoom h.ring length,stopped]

theorem storesOne {s t : Replay P} {x : P.Transition} (h : Countable s) (large : 2^31 < P.bufferSize)
    (room : s.stored.length < 2^31) (stores : ParentStores s (.add x))
    (moved : Replay.step std s (.add x) = some t) : t.stored.length = s.stored.length+1 := by
  obtain ⟨parent,returned⟩ := stores
  have is := addIs h.inStep.ring h.inStep.capacity x
  have pos := h.inStep.smallPos large (h.few large)
  simp only [Replay.step] at moved
  generalize (add x).run s.buffer = result at is moved
  cases is with
  | stored small added kept capacity =>
    cases Option.some.inj moved
    simp
  | raised small added kept capacity =>
    rw [returned] at added
    contradiction
  | refused above kept capacity => omega

theorem storesAll {fresh : RingBuffer} (made : newRing P std = .ok fresh) (large : 2^31 < P.bufferSize)
    (noWrap : P.bufferSize+1 < 2^64) {x : P.Transition}
    (stores : ∀ s : Replay P, ParentStores s (.add x)) {s t : Replay P} (h : Countable s) (j : Nat)
    (room : s.stored.length+j ≤ 2^31)
    (run : exec (Replay.step std) s (List.replicate j (.add x)) = some t) :
    t.stored.length = s.stored.length+j := by
  induction j generalizing s with
  | zero =>
    cases Option.some.inj run
    rfl
  | succ j ih =>
    obtain ⟨next,moved,later⟩ := execCons.mp run
    have one := storesOne h large (by omega) (stores s) moved
    obtain ⟨next',moved',counted⟩ := unharmedStep made noWrap s _ h (storesUnharmed h (stores s))
    cases Option.some.inj (moved'.symm.trans moved)
    have rest := ih counted (by omega) later
    omega

theorem largeBuffer (P : ReplayBuffer) (std : StdVector) (fb : FastReplayBuffer P)
    (made : construct P std = .ok fb) (large : 2^31 < P.bufferSize) (noWrap : P.bufferSize+1 < 2^64)
    (ops : List (ReplayOp P)) (stores : Meets (Replay.step std) ParentStores ⟨fb,[]⟩ ops) :
    ∃ s, exec (Replay.step std) ⟨fb,[]⟩ ops = some s ∧ s.stored.length ≤ 2^31 ∧
      P.pos s.buffer.parent = s.stored.length ∧ P.full s.buffer.parent = false ∧
      ∀ x, (s.stored.length < 2^31 → ∃ ring, (add x).run s.buffer =
          match (P.add x).run s.buffer.parent with
          | .ok _ parent => .ok () ⟨parent,ring⟩
          | .error e parent => .error (.parent e) ⟨parent,ring⟩) ∧
        (s.stored.length = 2^31 → (add x).run s.buffer = .error .typeError s.buffer) := by
  obtain ⟨fresh,start⟩ := startRing made noWrap
  obtain ⟨s,run,h⟩ := reaches (I := Countable)
    (fun s op counted allowed => unharmedStep fresh noWrap s op counted (storesUnharmed counted allowed))
    stores ⟨start,fun _ => Nat.zero_le _⟩
  have few := h.few large
  have pos := h.inStep.smallPos large few
  refine ⟨s,run,few,pos,?_,fun x => ⟨fun room => ?_,fun last => ?_⟩⟩
  · rw [h.inStep.full]
    exact decide_eq_false (by omega)
  · obtain ⟨ring,_,_,added⟩ := h.inStep.addFits (by omega) x
    exact ⟨ring,added⟩
  · have full := h.inStep
    rw [last] at full
    exact full.refusedAt large x

def StdVector.large : StdVector := ⟨2147483650,100,by decide⟩

def manyRows : FastReplayBuffer (arrays 2147483649) :=
  ⟨Arrays.blank,⟨2147483649,List.replicate 2147483650 0,0,0⟩⟩

theorem manyRowsMade : construct (arrays 2147483649) StdVector.large = .ok manyRows := by
  have slots : ((2147483649 : SizeT)+1).toNat = 2147483650 := by decide
  have word : (asSizeT 2147483649 : Except (PyError (arrays 2147483649).Error) SizeT)
      = .ok 2147483649 := if_pos (by decide)
  have fits : ¬ StdVector.large.maxInts < 2147483650 := by decide
  have ring : RingBuffer.construct StdVector.large 2147483649
      = .ok ⟨2147483649,List.replicate 2147483650 0,0,0⟩ := by
    simp only [RingBuffer.construct,slots,if_neg fits]
  have made : newRing (arrays 2147483649) StdVector.large
      = .ok ⟨2147483649,List.replicate 2147483650 0,0,0⟩ := by
    simp only [newRing,show (arrays 2147483649).bufferSize = 2147483649 from rfl,word,bind,
      Except.bind,ring,Except.mapError]
  simp only [construct,made,bind,Except.bind,pure,Except.pure]
  rfl

theorem manyRowsStore (s : Replay (arrays 2147483649)) : ParentStores s (.add (some 7)) := ⟨_,rfl⟩

theorem largeBufferAtLast : ∃ s,
    exec (Replay.step StdVector.large) ⟨manyRows,[]⟩ (List.replicate (2^31) (.add (some 7))) = some s ∧
      s.stored.length = 2^31 ∧ (add (some 7)).run s.buffer = .error .typeError s.buffer := by
  obtain ⟨s,run,_,_,_,adds⟩ := largeBuffer (arrays 2147483649) StdVector.large _ manyRowsMade
    (by decide) (by decide) (List.replicate (2^31) (.add (some 7)))
    (meetsAlways (fun a mem s => by rw [List.eq_of_mem_replicate mem]; exact manyRowsStore s) _)
  have start := startRing manyRowsMade (by decide)
  have filled := storesAll start.1 (by decide) (by decide) manyRowsStore
    ⟨start.2,fun _ => Nat.zero_le _⟩ (2^31) (by simp) run
  rw [List.length_nil,Nat.zero_add] at filled
  exact ⟨s,run,filled,(adds (some 7)).2 filled⟩

end FastReplay
