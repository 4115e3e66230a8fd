import Mathlib.Logic.Function.Basic
import FastReplay.RingBuffer

/-! FastReplayBuffer of fastreplay_sb3. Its parent class belongs to
stable_baselines3: what it stores, accepts and gathers is a parameter here, and
only the bookkeeping it documents is assumed of it. -/
namespace FastReplay

structure ReplayBuffer where
  State : Type
  Transition : Type
  Env : Type
  Error : Type
  Batch : Type
  bufferSize : Nat
  init : State
  pos : State → Nat
  full : State → Bool
  add : Transition → EStateM Error State Unit
  reset : State → State
  getSamples : State → List CInt → Env → Except Error Batch
  positive : 0 < bufferSize
  initial : pos init = 0 ∧ full init = false
  addReturns : ∀ x s t, pos s < bufferSize → (add x).run s = .ok () t →
    pos t = (pos s + 1) % bufferSize ∧ full t = (full s || decide (pos s + 1 = bufferSize))
  addRaises : ∀ x s e t, (add x).run s = .error e t → pos t = pos s ∧ full t = full s
  resets : ∀ s, pos (reset s) = 0 ∧ full (reset s) = false

def ReplayBuffer.size (P : ReplayBuffer) (s : P.State) : Nat :=
  if P.full s then P.bufferSize else P.pos s

structure Arrays where
  rows : Nat → Option CInt
  pos : Nat
  full : Bool

def Arrays.blank : Arrays := ⟨fun _ => some 0,0,false⟩

def Arrays.add (n : Nat) : Option CInt → EStateM String Arrays Unit
  | none => fun s => .error "could not broadcast input array" s
  | some v => fun s => .ok () ⟨Function.update s.rows s.pos (some v),
      if s.pos+1 = n then 0 else s.pos+1,s.full || decide (s.pos+1 = n)⟩

theorem Arrays.blankStarts : Arrays.blank.pos = 0 ∧ Arrays.blank.full = false := ⟨rfl,rfl⟩

theorem Arrays.addReturns {n : Nat} (x : Option CInt) (s t : Arrays) (below : s.pos < n)
    (added : (Arrays.add n x).run s = .ok () t) :
    t.pos = (s.pos+1) % n ∧ t.full = (s.full || decide (s.pos+1 = n)) := by
  cases x with
  | none => cases added
  | some v =>
    cases added
    refine ⟨?_,rfl⟩
    by_cases wraps : s.pos+1 = n
    · simp [wraps]
    · simp only [if_neg wraps]
      exact (Nat.mod_eq_of_lt (by omega)).symm

theorem Arrays.addRaises {n : Nat} (x : Option CInt) (s : Arrays) (e : String) (t : Arrays)
    (raised : (Arrays.add n x).run s = .error e t) : t.pos = s.pos ∧ t.full = s.full := by
  cases x with
  | none =>
    cases raised
    exact ⟨rfl,rfl⟩
  | some v => cases raised

/- n rows, but at least one; none is a transition of the wrong shape, which is refused. -/
def arrays (n : Nat) : ReplayBuffer where
  State := Arrays
  Transition := Option CInt
  Env := Unit
  Error := String
  Batch := List (Option CInt)
  bufferSize := max n 1
  init := .blank
  pos := Arrays.pos
  full := Arrays.full
  add := Arrays.add (max n 1)
  reset s := { s with pos := 0, full := false }
  getSamples s inds _ := .ok (inds.map fun i => s.rows i.toInt.toNat)
  positive := Nat.le_max_right n 1
  initial := Arrays.blankStarts
  addReturns := Arrays.addReturns
  addRaises := Arrays.addRaises
  resets := fun _ => ⟨rfl,rfl⟩

inductive PyError (ε : Type) where
  | ring (fault : Fault)
  | typeError
  | indexError
  | parent (e : ε)
  deriving DecidableEq, Repr

def PyError.undefined {ε : Type} : PyError ε → Bool
  | .ring fault => fault.undefined
  | _ => false

structure FastReplayBuffer (P : ReplayBuffer) where
  parent : P.State
  indexRing : RingBuffer

namespace FastReplayBuffer
variable {P : ReplayBuffer} {α : Type}

abbrev Call (P : ReplayBuffer) := EStateM (PyError P.Error) (FastReplayBuffer P)

def onRing (call : RingBuffer.Call α) : Call P α := fun fb =>
  match call.run fb.indexRing with
  | .ok a ring => .ok a { fb with indexRing := ring }
  | .error fault ring => .error (.ring fault) { fb with indexRing := ring }

def onParent (call : EStateM P.Error P.State α) : Call P α := fun fb =>
  match call.run fb.parent with
  | .ok a parent => .ok a { fb with parent := parent }
  | .error e parent => .error (.parent e) { fb with parent := parent }

/- pybind11 refuses a Python int that its parameter type cannot hold. -/
def asInt (n : Nat) : Except (PyError P.Error) CInt :=
  if n < 2^31 then .ok (Int32.ofNat n) else .error .typeError

def asSizeT (n : Nat) : Except (PyError P.Error) SizeT :=
  if n < 2^64 then .ok (UInt64.ofNat n) else .error .typeError

def newRing (P : ReplayBuffer) (std : StdVector) : Except (PyError P.Error) RingBuffer := do
  let capacity ← asSizeT P.bufferSize
  (RingBuffer.construct std capacity).mapError .ring

def construct (P : ReplayBuffer) (std : StdVector) : Except (PyError P.Error) (FastReplayBuffer P) := do
  let indexRing ← newRing P std
  return ⟨P.init,indexRing⟩

def evict : Call P (Option CInt) := do
  if (← onRing RingBuffer.size) = (← onRing RingBuffer.getCapacity) then
    onRing RingBuffer.popValue
  else return none

def record : Call P Bool := do
  let value ← MonadExcept.ofExcept (asInt (P.pos (← get).parent))
  onRing (RingBuffer.push value)

def add (x : P.Transition) : Call P Unit := do
  let _ ← evict
  let _ ← record
  onParent (P.add x)

def reset (std : StdVector) : Call P Unit := do
  modify fun fb => { fb with parent := P.reset fb.parent }
  let indexRing ← MonadExcept.ofExcept (newRing P std)
  modify fun fb => { fb with indexRing := indexRing }

/- view[i] of NumPy: a negative index counts from the end. -/
def pick (view : List CInt) (i : Int64) : Except (PyError P.Error) CInt :=
  let place : Int := if i.toInt < 0 then i.toInt + view.length else i.toInt
  if place < 0 then .error .indexError
  else match view[place.toNat]? with
    | some value => .ok value
    | none => .error .indexError

def batchInds (std : StdVector) (gen : Generator) (batchSize : SizeT) : Call P (List CInt) := do
  let ringView ← onRing RingBuffer.asarray
  let physInds ← onRing (RingBuffer.sampleIndicesInt64 std gen batchSize)
  MonadExcept.ofExcept (physInds.mapM (pick ringView))

def sample (std : StdVector) (gen : Generator) (batchSize : SizeT) (env : P.Env) : Call P P.Batch := do
  let inds ← batchInds std gen batchSize
  MonadExcept.ofExcept ((P.getSamples (← get).parent inds env).mapError .parent)

def ringSize : Call P SizeT := onRing RingBuffer.size

def twoRows : FastReplayBuffer (arrays 2) := ⟨Arrays.blank,⟨2,[0,0,0],0,0⟩⟩

end FastReplayBuffer

inductive ReplayOp (P : ReplayBuffer) where
  | add (x : P.Transition)
  | reset
  | sample (gen : Generator) (batchSize : SizeT) (env : P.Env)

/- stored: what the adds since the last reset were given, those that raised left out. -/
structure Replay (P : ReplayBuffer) where
  buffer : FastReplayBuffer P
  stored : List P.Transition

namespace Replay
variable {P : ReplayBuffer}

/- An exception leaves the buffer as it stands; undefined behaviour leaves none. -/
def after {α : Type} (result : EStateM.Result (PyError P.Error) (FastReplayBuffer P) α)
    (returned raised : List P.Transition) : Option (Replay P) :=
  match result with
  | .ok _ fb => some ⟨fb,returned⟩
  | .error e fb => if e.undefined then none else some ⟨fb,raised⟩

def step (std : StdVector) (s : Replay P) : ReplayOp P → Option (Replay P)
  | .add x => after ((FastReplayBuffer.add x).run s.buffer) (s.stored ++ [x]) s.stored
  | .reset => after ((FastReplayBuffer.reset std).run s.buffer) [] []
  | .sample gen batchSize env =>
    after ((FastReplayBuffer.sample std gen batchSize env).run s.buffer) s.stored s.stored

def AddReturns (s : Replay P) : ReplayOp P → Prop
  | .add x => ∃ fb, (FastReplayBuffer.add x).run s.buffer = .ok () fb
  | _ => True

end Replay
end FastReplay
