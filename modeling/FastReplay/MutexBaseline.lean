import FastReplay.LockedObject
import FastReplay.Linearization

/-! fastreplay_baseline::RingBuffer, each of its calls one access of a member at a time,
between the lock_guard and the end of its scope. Any number of threads may call it. -/
namespace FastReplay.Baseline
open LockedObject EffectOrder CallHistory GuardedRun

inductive Method where
  | push (value : CInt)
  | pop (outVal : Option CInt)
  | size
  | empty
  deriving DecidableEq, Repr

inductive Result where
  | pushed (ok : Bool)
  | popped (ok : Bool) (out : Option CInt)
  | count (n : Nat)
  | flag (b : Bool)
  deriving DecidableEq, Repr

inductive Stage where
  | loadTail (value : CInt)
  | testFull (value : CInt) (nextTail : Nat)
  | loadSlot (value : CInt) (nextTail : Nat)
  | store (value : CInt) (nextTail slot : Nat)
  | storeTail (nextTail : Nat)
  | loadHead (outVal : Option CInt)
  | testEmpty (outVal : Option CInt) (head : Nat)
  | loadEntry
  | copyEntry (slot : Nat)
  | advance (out : Option CInt)
  | storeHead (out : Option CInt) (nextHead : Nat)
  | sizeTail
  | sizeHead (tail : Nat)
  | emptyHead
  | emptyTail (head : Nat)
  deriving DecidableEq, Repr

def start : Method → Stage
  | .push value => .loadTail value
  | .pop outVal => .loadHead outVal
  | .size => .sizeTail
  | .empty => .emptyHead

def access (rb : Baseline) : Stage → Option (Baseline × (Stage ⊕ Result))
  | .loadTail value => some (rb,.inl (.testFull value ((rb.tail+1) % (rb.capacity+1))))
  | .testFull value nextTail =>
    some (rb,if nextTail = rb.head then .inr (.pushed false) else .inl (.loadSlot value nextTail))
  | .loadSlot value nextTail => some (rb,.inl (.store value nextTail rb.tail))
  | .store value nextTail slot =>
    if slot < rb.buf.length then
      some ({ rb with buf := rb.buf.set slot value },.inl (.storeTail nextTail))
    else none
  | .storeTail nextTail => some ({ rb with tail := nextTail },.inr (.pushed true))
  | .loadHead outVal => some (rb,.inl (.testEmpty outVal rb.head))
  | .testEmpty outVal head =>
    some (rb,if head = rb.tail then .inr (.popped false outVal) else .inl (match outVal with
      | none => .advance none
      | some _ => .loadEntry))
  | .loadEntry => some (rb,.inl (.copyEntry rb.head))
  | .copyEntry slot => do
    let value ← rb.buf[slot]?
    some (rb,.inl (.advance (some value)))
  | .advance out => some (rb,.inl (.storeHead out ((rb.head+1) % (rb.capacity+1))))
  | .storeHead out nextHead => some ({ rb with head := nextHead },.inr (.popped true out))
  | .sizeTail => some (rb,.inl (.sizeHead rb.tail))
  | .sizeHead tail => some (rb,.inr (.count (ExactRing.sizeFrom rb.capacity tail rb.head)))
  | .emptyHead => some (rb,.inl (.emptyTail rb.head))
  | .emptyTail head => some (rb,.inr (.flag (head = rb.tail)))

def code (θ : Type) : Code (θ × Method) Result Stage Baseline := ⟨fun call => start call.2,access⟩

abbrev Locked (θ : Type) := State θ (θ × Method) Result Stage Baseline

def init (θ : Type) (capacity : Nat) : Locked θ := LockedObject.init (construct capacity)

def step (θ : Type) [DecidableEq θ] : Locked θ → Action θ (θ × Method) → Option (Locked θ) :=
  LockedObject.step Prod.fst (code θ)

def serve (capacity : Nat) (entries : List CInt) : Method → Result × List CInt
  | .push value => (.pushed (BoundedQueue.offer capacity entries value).1,
      (BoundedQueue.offer capacity entries value).2)
  | .pop outVal => (.popped (ExactRing.popped entries outVal).1 (ExactRing.popped entries outVal).2,
      (BoundedQueue.poll entries).2)
  | .size => (.count entries.length,entries)
  | .empty => (.flag entries.isEmpty,entries)

def object (θ : Type) (capacity : Nat) (entries : List CInt) (call : θ × Method) :
    Result × List CInt := serve capacity entries call.2

def ring (rb : Baseline) : ExactRing := ⟨rb.capacity,rb.buf,rb.head,rb.tail⟩

def Represents (capacity : Nat) (rb : Baseline) (entries : List CInt) : Prop :=
  rb.capacity = capacity ∧ rb.ring.Stores entries

variable {θ : Type} {capacity : Nat} {rb : Baseline} {entries : List CInt}

theorem constructRepresents (capacity : Nat) : Represents capacity (construct capacity) [] :=
  ⟨rfl,ExactRing.constructStores capacity⟩

theorem pushFinishes (stored : rb.ring.Stores entries) (value : CInt) :
    Finishes (code θ) rb (.loadTail value) (.pushed (rb.push value).1) (rb.push value).2 := by
  have below : rb.tail < rb.buf.length := by
    have tail := stored.tail
    have slots := stored.slots
    simp only [ring] at tail slots
    rw [tail,slots]
    exact Nat.mod_lt _ (Nat.succ_pos _)
  refine .more rfl ?_
  unfold push
  by_cases full : (rb.tail+1) % (rb.capacity+1) = rb.head
  · rw [if_pos full]
    exact .last (by simp only [code,access,if_pos full])
  · rw [if_neg full]
    have tested : (code θ).access rb (.testFull value ((rb.tail+1) % (rb.capacity+1))) =
        some (rb,.inl (.loadSlot value ((rb.tail+1) % (rb.capacity+1)))) := by
      simp only [code,access,if_neg full]
    have stores : (code θ).access rb (.store value ((rb.tail+1) % (rb.capacity+1)) rb.tail) =
        some ({ rb with buf := rb.buf.set rb.tail value },
          .inl (.storeTail ((rb.tail+1) % (rb.capacity+1)))) := by
      simp only [code,access,if_pos below]
    exact .more tested (.more rfl (.more stores (.last rfl)))

theorem popFinishes (stored : rb.ring.Stores entries) (outVal : Option CInt) :
    Finishes (code θ) rb (.loadHead outVal) (.popped (rb.pop outVal).1.1 (rb.pop outVal).1.2)
      (rb.pop outVal).2 := by
  have below : rb.head < rb.buf.length := by
    have head := stored.head
    have slots := stored.slots
    simp only [ring] at head slots
    omega
  refine .more rfl ?_
  unfold pop
  by_cases empty : rb.head = rb.tail
  · rw [if_pos empty]
    exact .last (by simp only [code,access,if_pos empty])
  · rw [if_neg empty]
    cases outVal with
    | none =>
      have tested : (code θ).access rb (.testEmpty none rb.head) = some (rb,.inl (.advance none)) := by
        simp only [code,access,if_neg empty]
      exact .more tested (.more rfl (.last rfl))
    | some old =>
      have tested : (code θ).access rb (.testEmpty (some old) rb.head) = some (rb,.inl .loadEntry) := by
        simp only [code,access,if_neg empty]
      have found : rb.buf[rb.head]? = some (rb.buf.getD rb.head 0) := by
        rw [List.getElem?_eq_getElem below]
        simp [List.getD,below]
      have copied : (code θ).access rb (.copyEntry rb.head) =
          some (rb,.inl (.advance (some (rb.buf.getD rb.head 0)))) := by
        simp only [code,access,found]
        rfl
      exact .more tested (.more rfl (.more copied (.more rfl (.last rfl))))

theorem pushRing (rb : Baseline) (value : CInt) : (rb.push value).1 = (rb.ring.push value).1 ∧
    (rb.push value).2.ring = (rb.ring.push value).2 ∧ (rb.push value).2.capacity = rb.capacity := by
  by_cases full : (rb.tail+1) % (rb.capacity+1) = rb.head <;> simp [push,ExactRing.push,ring,full]

theorem popRing (rb : Baseline) (outVal : Option CInt) : (rb.pop outVal).1 = (rb.ring.pop outVal).1 ∧
    (rb.pop outVal).2.ring = (rb.ring.pop outVal).2 ∧ (rb.pop outVal).2.capacity = rb.capacity := by
  by_cases empty : rb.head = rb.tail <;> simp [pop,ExactRing.pop,ring,empty]

theorem codeServes (θ : Type) (capacity : Nat) :
    Serves (code θ) (object θ capacity) (Represents capacity) := by
  intro rb entries call represented
  obtain ⟨rfl,stored⟩ := represented
  obtain ⟨thread,method⟩ := call
  cases method with
  | push value =>
    obtain ⟨ok,queue⟩ := stored.push value
    obtain ⟨answer,after,kept⟩ := pushRing rb value
    have finishes : Finishes (code θ) rb (.loadTail value) (.pushed (rb.push value).1)
        (rb.push value).2 := pushFinishes stored value
    rw [answer,ok] at finishes
    exact ⟨_,finishes,kept,by rw [after]; exact queue⟩
  | pop outVal =>
    obtain ⟨popped,queue⟩ := stored.pop outVal
    obtain ⟨answer,after,kept⟩ := popRing rb outVal
    have finishes : Finishes (code θ) rb (.loadHead outVal)
        (.popped (rb.pop outVal).1.1 (rb.pop outVal).1.2) (rb.pop outVal).2 :=
      popFinishes stored outVal
    rw [answer,popped] at finishes
    exact ⟨_,finishes,kept,by rw [after]; exact queue⟩
  | size =>
    have length : ExactRing.sizeFrom rb.capacity rb.tail rb.head = entries.length := stored.size
    have counted : (code θ).access rb (.sizeHead rb.tail) = some (rb,.inr (.count entries.length)) := by
      simp only [code,access,length]
    exact ⟨rb,.more rfl (.last counted),rfl,stored⟩
  | empty =>
    have flag : decide (rb.head = rb.tail) = entries.isEmpty := by
      rw [Bool.eq_iff_iff,decide_eq_true_iff]
      exact stored.emptyIff.trans List.isEmpty_iff.symm
    have told : (code θ).access rb (.emptyTail rb.head) = some (rb,.inr (.flag entries.isEmpty)) := by
      simp only [code,access,flag]
    exact ⟨rb,.more rfl (.last told),rfl,stored⟩

theorem mutexLinearizes (θ : Type) [DecidableEq θ] (capacity : Nat)
    (acts : List (Action θ (θ × Method))) (s : Locked θ)
    (run : exec (step θ) (init θ capacity) acts = some s) :
    (∃ effects entries, Takes (numbered (object θ capacity)) [] s.events effects entries ∧
      (s.holder = none → s.shared.ring.Stores entries) ∧
      ((∀ thread, s.calls thread = none) →
        Linearizes (numbered (object θ capacity)) [] s.events effects entries)) ∧
    ∀ thread other issued phase issued' phase', s.calls thread = some (issued,phase) →
      s.calls other = some (issued',phase') → phase.inLock → phase'.inLock → thread = other := by
  obtain ⟨effects,entries,inv⟩ := runInv (codeServes θ capacity) (constructRepresents capacity) run
  refine ⟨⟨effects,entries,inv.books.takes,fun free => (inv.free free).2,inv.books.linearizes⟩,?_⟩
  intro thread other issued phase issued' phase' here there inside inside'
  exact Option.some.inj ((inv.holds here inside).symm.trans (inv.holds there inside'))

theorem mutexLinearizesTwo : ∃ s effects,
    exec (step Bool) (init Bool 1) [.call (true,.pop (some 0)),.call (false,.push 5),
      .go false,.go false,.go false,.go false,.go false,.go false,.go false,.go true,.go true,.go true,
      .go false,.go true,.go true,.go true,.go true,.go true,.go true] = some s ∧
    Linearizes (numbered (object Bool 1)) [] s.events effects [] := by
  obtain ⟨⟨effects,entries,_,stores,linear⟩,_⟩ := mutexLinearizes Bool 1
    [.call (true,.pop (some 0)),.call (false,.push 5),.go false,.go false,.go false,.go false,.go false,
      .go false,.go false,.go true,.go true,.go true,.go false,.go true,.go true,.go true,.go true,
      .go true,.go true] _ rfl
  have none : entries = [] := List.length_eq_zero_iff.mp (stores rfl).size.symm
  subst none
  exact ⟨_,effects,rfl,linear fun thread => by cases thread <;> rfl⟩

theorem mutexCompletes (θ : Type) [DecidableEq θ] (capacity : Nat)
    (acts : List (Action θ (θ × Method))) (s : Locked θ)
    (run : exec (step θ) (init θ capacity) acts = some s) :
    ∃ (threads : List θ) (t : Locked θ),
      exec (step θ) s (threads.map .go) = some t ∧ ∀ thread, t.calls thread = none := by
  obtain ⟨effects,entries,inv⟩ := runInv (codeServes θ capacity) (constructRepresents capacity) run
  obtain ⟨t,⟨threads,goes⟩,done⟩ := completes (codeServes θ capacity) inv
  exact ⟨threads,t,goes,done⟩

theorem mutexCompletesTwo : ∃ s, exec (step Bool) (init Bool 1)
      [.call (false,.push 5),.go false,.go false,.call (true,.size)] = some s ∧ s.holder = some false ∧
    ∃ (threads : List Bool) (t : Locked Bool),
      exec (step Bool) s (threads.map .go) = some t ∧ ∀ thread, t.calls thread = none :=
  ⟨_,rfl,rfl,mutexCompletes Bool 1 [.call (false,.push 5),.go false,.go false,.call (true,.size)] _ rfl⟩

end FastReplay.Baseline
