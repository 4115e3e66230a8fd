import FastReplay.GuardedRun
import FastReplay.RingWords

/-! One thread calling a ring again and again, from the constructor on. A call
that throws leaves a session to go on with; undefined behaviour leaves none. -/
namespace FastReplay
open GuardedRun
open RingBuffer (Admitted Agrees arrayExact)

inductive Op where
  | push (value : CInt)
  | pop (outVal : Option CInt)
  | advanceHead (n : SizeT)
  | size
  | empty
  | sampleIndices (gen : Generator) (batchSize : SizeT)
  | popView (built : Bool) (n : SizeT)

inductive Value (ι : Type) where
  | done
  | flag (b : Bool)
  | popped (b : Bool) (out : Option CInt)
  | count (n : ι)
  | indices (slots : List ι)
  | array (a : PyArray ι)
  deriving DecidableEq, Repr

def valueExact : Value SizeT → Value Nat
  | .done => .done
  | .flag b => .flag b
  | .popped b out => .popped b out
  | .count n => .count n.toNat
  | .indices slots => .indices (slots.map UInt64.toNat)
  | .array a => .array (arrayExact a)

def Op.call (std : StdVector) : Op → RingBuffer.Call (Value SizeT)
  | .push value => .flag <$> RingBuffer.push value
  | .pop outVal => (fun p => .popped p.1 p.2) <$> RingBuffer.pop outVal
  | .advanceHead n => (fun _ => .done) <$> RingBuffer.advanceHead n
  | .size => .count <$> RingBuffer.size
  | .empty => .flag <$> RingBuffer.empty
  | .sampleIndices gen batchSize => .indices <$> RingBuffer.sampleIndices std gen batchSize
  | .popView built n => .array <$> RingBuffer.popView built n

def Op.exact (std : StdVector) (r : ExactRing) : Op → Except Exception (Value Nat) × ExactRing
  | .push value => (.ok (.flag (r.push value).1),(r.push value).2)
  | .pop outVal => (.ok (.popped (r.pop outVal).1.1 (r.pop outVal).1.2),(r.pop outVal).2)
  | .advanceHead n => (.ok .done,r.advanceHead n.toNat)
  | .size => (.ok (.count r.size),r)
  | .empty => (.ok (.flag r.empty),r)
  | .sampleIndices gen batchSize => ((r.sampleIndices std gen batchSize.toNat).map .indices,r)
  | .popView built n => ((r.popView built n.toNat).1.map .array,(r.popView built n.toNat).2)

structure Session (ρ ι : Type) where
  ring : ρ
  results : List (Except Exception (Value ι))

def step (std : StdVector) (s : Session RingBuffer SizeT) (op : Op) :
    Option (Session RingBuffer SizeT) :=
  match (op.call std).run s.ring with
  | .ok v ring => some ⟨ring,s.results ++ [.ok v]⟩
  | .error (.raised e) ring => some ⟨ring,s.results ++ [.error e]⟩
  | .error _ _ => none

def exactStep (std : StdVector) (s : Session ExactRing Nat) (op : Op) :
    Option (Session ExactRing Nat) :=
  some ⟨(op.exact std s.ring).2,s.results ++ [(op.exact std s.ring).1]⟩

/- advance_head checks nothing itself: its only caller compares n with size(). -/
def Op.Allowed (s : Session RingBuffer SizeT) : Op → Prop
  | .advanceHead n => ∀ count after, RingBuffer.size.run s.ring = .ok count after → n ≤ count
  | _ => True

theorem agreesMap {α β γ δ : Type} {f : α → β} {g : α → γ} {h : γ → δ} {k : β → δ}
    {call : RingBuffer.Call α} {rb : RingBuffer} (expected : Except Exception β × ExactRing)
    (agrees : Agrees f (call.run rb) expected) (commutes : ∀ a, h (g a) = k (f a)) :
    Agrees h ((g <$> call).run rb) (expected.1.map k,expected.2) := by
  rw [RingBuffer.runMap]
  unfold Agrees at agrees ⊢
  split at agrees
  · rename_i a after result
    rw [agrees.1]
    simpa [result,commutes,Except.map] using agrees.2
  · rename_i e after result
    rw [agrees.1]
    simpa [result,Except.map] using agrees.2
  · contradiction

theorem opAgrees (std : StdVector) {s op} (ok : Admitted s.ring) (allowed : Op.Allowed s op) :
    Agrees valueExact ((op.call std).run s.ring) (op.exact std s.ring.exact) := by
  cases op with
  | push value =>
    obtain ⟨after,run,exactAfter,admitted⟩ := RingBuffer.pushRun ok value
    refine agreesMap (f := id) (.ok _,_) ?_ fun _ => rfl
    rw [run]
    exact ⟨by rw [exactAfter]; rfl,admitted⟩
  | pop outVal =>
    obtain ⟨after,run,exactAfter,admitted⟩ := RingBuffer.popRun ok outVal
    refine agreesMap (f := id) (k := fun p : Bool × Option CInt => Value.popped p.1 p.2) (.ok _,_) ?_
      fun _ => rfl
    rw [run]
    exact ⟨by rw [exactAfter]; rfl,admitted⟩
  | advanceHead n =>
    obtain ⟨count,sized,word⟩ := RingBuffer.sizeRun ok
    have most := ok.sizeAtMost
    have within : n.toNat ≤ count.toNat := UInt64.le_iff_toNat_le.mp (allowed count _ sized)
    obtain ⟨after,run,exactAfter,admitted⟩ := RingBuffer.advanceHeadRun ok (n := n) (by omega)
    refine agreesMap (f := id) (k := fun _ => Value.done) (.ok (),_) ?_ fun _ => rfl
    rw [run]
    exact ⟨by rw [exactAfter]; rfl,admitted⟩
  | size =>
    obtain ⟨count,sized,word⟩ := RingBuffer.sizeRun ok
    refine agreesMap (f := UInt64.toNat) (.ok _,_) ?_ fun _ => rfl
    rw [sized,← word]
    exact ⟨rfl,ok⟩
  | empty =>
    refine agreesMap (f := id) (.ok _,_) ?_ fun _ => rfl
    rw [RingBuffer.emptyRun]
    exact ⟨rfl,ok⟩
  | sampleIndices gen batchSize =>
    exact agreesMap (_,_) (RingBuffer.sampleIndicesRun ok std gen batchSize) fun _ => rfl
  | popView built n => exact agreesMap _ (RingBuffer.popViewRun ok built n) fun _ => rfl

structure Matches (s : Session RingBuffer SizeT) (e : Session ExactRing Nat) : Prop where
  admitted : Admitted s.ring
  ring : s.ring.exact = e.ring
  results : s.results.map (Except.map valueExact) = e.results

theorem stepMatches (std : StdVector) {s e op} (same : Matches s e) (allowed : Op.Allowed s op) :
    ∃ s' e', step std s op = some s' ∧ exactStep std e op = some e' ∧ Matches s' e' := by
  have agrees := opAgrees std same.admitted allowed
  unfold Agrees at agrees
  unfold step exactStep
  split at agrees
  · rename_i v after result
    rw [result,← same.ring,agrees.1]
    exact ⟨_,_,rfl,rfl,agrees.2,rfl,by simp [same.results,Except.map]⟩
  · rename_i e after result
    rw [result,← same.ring,agrees.1]
    exact ⟨_,_,rfl,rfl,agrees.2,rfl,by simp [same.results,Except.map]⟩
  · contradiction

theorem sessionMatches (std : StdVector) {s e} (same : Matches s e) (ops : List Op)
    (allowed : Meets (step std) Op.Allowed s ops) :
    ∃ s' e', exec (step std) s ops = some s' ∧ exec (exactStep std) e ops = some e' ∧
      Matches s' e' :=
  simulated (fun _ _ _ => stepMatches std) same allowed

end FastReplay
