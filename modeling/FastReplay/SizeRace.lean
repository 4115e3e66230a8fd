import Mathlib.Logic.Function.Basic
import FastReplay.Interleaving

/-! size() and empty() while the two threads run, called by either of them or by a
third. Both make two loads, and the ring may change in between. -/
namespace FastReplay.Monitoring
open GuardedRun
open Threads (slots)

inductive Caller where
  | producer
  | consumer
  | other (k : Nat)
  deriving DecidableEq, Repr

/- size() loads tail_ first. C++ leaves open which side of == empty() loads first. -/
inductive Query where
  | size
  | emptyHeadFirst
  | emptyTailFirst
  deriving DecidableEq, Repr

inductive Reply where
  | count (n : Nat)
  | flag (b : Bool)
  deriving DecidableEq, Repr

def Query.load (r : ExactRing) : Query → Nat
  | .size | .emptyTailFirst => r.tail
  | .emptyHeadFirst => r.head

def Query.reply (loaded : Nat) (r : ExactRing) : Query → Reply
  | .size => .count (ExactRing.sizeFrom r.capacity loaded r.head)
  | .emptyHeadFirst => .flag (loaded = r.tail)
  | .emptyTailFirst => .flag (r.head = loaded)

/- A call after its first load: the state that load was made in, and every state
the ring has been in from then on. -/
structure Pending where
  query : Query
  loaded : Nat
  first : Threads.State
  moments : List Threads.State
  deriving DecidableEq, Repr

structure Answered where
  caller : Caller
  call : Pending
  reply : Reply
  last : Threads.State
  deriving DecidableEq, Repr

structure State where
  now : Threads.State
  calls : Caller → Option Pending
  answers : List Answered

def init (capacity : Nat) : State := ⟨Threads.init capacity,fun _ => none,[]⟩

inductive Action where
  | run (a : Threads.Action)
  | begin (caller : Caller) (query : Query)
  | answer (caller : Caller)
  deriving DecidableEq, Repr

def actor : Threads.Action → Caller
  | .push _ | .produce => .producer
  | .pop _ | .popView _ | .consume => .consumer

def free (s : Threads.State) : Caller → Bool
  | .producer => s.producer = .idle
  | .consumer => s.consumer = .idle
  | .other _ => true

def step (s : State) : Action → Option State
  | .run a => match s.calls (actor a) with
    | none => do
      let now ← Threads.step s.now a
      some { s with
        now := now
        calls := fun c => (s.calls c).map fun p => { p with moments := p.moments ++ [now] } }
    | some _ => none
  | .begin caller query => match s.calls caller with
    | none =>
      let call : Pending := ⟨query,query.load s.now.ring,s.now,[s.now]⟩
      if free s.now caller then some { s with calls := Function.update s.calls caller (some call) }
      else none
    | some _ => none
  | .answer caller => do
    let call ← s.calls caller
    some { s with
      calls := Function.update s.calls caller none
      answers := s.answers ++ [⟨caller,call,call.query.reply call.loaded s.now.ring,s.now⟩] }

def stored (s : Threads.State) : Nat := s.pushed.length - s.consumed

def published (s t : Threads.State) : Nat := t.pushed.length - s.pushed.length

def released (s t : Threads.State) : Nat := t.consumed - s.consumed

/- What was returned was so at some moment from the first load to the last. -/
def Truthful (a : Answered) : Prop := match a.reply with
  | .count n => ∃ x ∈ a.call.moments, stored x = n
  | .flag b => ∃ x ∈ a.call.moments, decide (stored x = 0) = b

def PopsFirst (a : Answered) : Prop :=
  ∃ x ∈ a.call.moments, published a.call.first x = 0 ∧ released x a.last = 0

/- What the two threads may do between the loads of a call. -/
def Undisturbed (a : Answered) : Prop := match a.call.query with
  | .size => PopsFirst a
  | .emptyTailFirst => PopsFirst a ∨ released a.call.first a.last < stored a.call.first
  | .emptyHeadFirst => stored a.call.first + published a.call.first a.last ≤ a.last.ring.capacity

structure Witnessed (capacity : Nat) (caller : Caller) (call : Pending) (last : Threads.State) :
    Prop where
  loaded : call.loaded = call.query.load call.first.ring
  inv : ∀ x ∈ call.moments, Threads.Inv capacity x
  pushed : ∀ x ∈ call.moments,
    call.first.pushed.length ≤ x.pushed.length ∧ x.pushed.length ≤ last.pushed.length
  consumed : ∀ x ∈ call.moments, call.first.consumed ≤ x.consumed ∧ x.consumed ≤ last.consumed
  begins : call.first ∈ call.moments
  ends : last ∈ call.moments
  -- a ring that was empty all along has not moved
  moved : (∃ x ∈ call.moments, stored x ≠ 0) ∨
    last.pushed.length = call.first.pushed.length ∧ last.consumed = call.first.consumed
  producer : caller = .producer → last.pushed.length = call.first.pushed.length
  consumer : caller = .consumer → last.consumed = call.first.consumed

structure Inv (capacity : Nat) (s : State) : Prop where
  threads : Threads.Inv capacity s.now
  calls : ∀ c p, s.calls c = some p → Witnessed capacity c p s.now
  answers : ∀ a ∈ s.answers, Witnessed capacity a.caller a.call a.last ∧
    a.reply = a.call.query.reply a.call.loaded a.last.ring

theorem initInv (capacity : Nat) : Inv capacity (init capacity) where
  threads := Threads.initInv capacity
  calls c p some := by simp [init] at some
  answers a mem := by simp [init] at mem

variable {capacity : Nat} {s t : State}

structure Moves (a : Threads.Action) (s t : Threads.State) : Prop where
  pushed : s.pushed.length ≤ t.pushed.length
  consumed : s.consumed ≤ t.consumed
  producer : actor a = .producer → t.consumed = s.consumed
  consumer : actor a = .consumer → t.pushed = s.pushed

theorem stepMoves {a} {s t : Threads.State} (moved : Threads.step s a = some t) : Moves a s t := by
  cases a with
  | push value =>
    obtain ⟨_,rfl⟩ := Threads.beginPushIs moved
    exact ⟨Nat.le_refl _,Nat.le_refl _,fun _ => rfl,fun _ => rfl⟩
  | produce =>
    have onward := Threads.produceOnward moved
    refine ⟨?_,onward.consumed.ge,fun _ => onward.consumed,fun own => by simp [actor] at own⟩
    by_contra shorter
    have inside : t.pushed.length < s.pushed.length := by omega
    have kept := Threads.producePublishes moved (List.getElem?_eq_getElem inside)
    simp at kept
  | pop outVal =>
    obtain ⟨_,rfl⟩ := Threads.beginCallIs moved
    exact ⟨Nat.le_refl _,Nat.le_refl _,fun _ => rfl,fun _ => rfl⟩
  | popView n =>
    obtain ⟨_,rfl⟩ := Threads.beginCallIs moved
    exact ⟨Nat.le_refl _,Nat.le_refl _,fun _ => rfl,fun _ => rfl⟩
  | consume =>
    have drains := Threads.consumeDrains moved
    exact ⟨by rw [drains.pushed],drains.grows,fun own => by simp [actor] at own,fun _ => drains.pushed⟩

theorem actorThread (a : Threads.Action) : actor a = .producer ∨ actor a = .consumer := by
  cases a <;> simp [actor]

theorem Moves.emptied {a} {first s t : Threads.State} (moves : Moves a s t)
    (before : s.consumed ≤ s.pushed.length) (after : t.consumed ≤ t.pushed.length)
    (still : s.pushed.length = first.pushed.length ∧ s.consumed = first.consumed) :
    stored s ≠ 0 ∨ stored t ≠ 0 ∨
      t.pushed.length = first.pushed.length ∧ t.consumed = first.consumed := by
  unfold stored
  rcases actorThread a with own | own
  · have same := moves.producer own
    omega
  · have same := congrArg List.length (moves.consumer own)
    omega

theorem Witnessed.extend {caller call a} {s t : Threads.State} (w : Witnessed capacity caller call s)
    (inv : Threads.Inv capacity t) (moves : Moves a s t) (other : caller ≠ actor a) :
    Witnessed capacity caller { call with moments := call.moments ++ [t] } t := by
  have grown := moves.pushed
  have gone := moves.consumed
  have old : ∀ x ∈ call.moments, x ∈ call.moments ++ [t] := fun x => List.mem_append_left [t]
  have new : t ∈ call.moments ++ [t] := List.mem_append_right _ (List.mem_singleton_self t)
  have cases : ∀ x ∈ call.moments ++ [t], x ∈ call.moments ∨ x = t := by simp
  refine ⟨w.loaded,?_,?_,?_,old _ w.begins,new,?_,?_,?_⟩
  · intro x mem
    rcases cases x mem with before | rfl
    · exact w.inv x before
    · exact inv
  · intro x mem
    rcases cases x mem with before | rfl
    · have := w.pushed x before
      exact ⟨this.1,by omega⟩
    · have := w.pushed s w.ends
      exact ⟨by dsimp only; omega,Nat.le_refl _⟩
  · intro x mem
    rcases cases x mem with before | rfl
    · have := w.consumed x before
      exact ⟨this.1,by omega⟩
    · have := w.consumed s w.ends
      exact ⟨by dsimp only; omega,Nat.le_refl _⟩
  · rcases w.moved with ⟨x,mem,some⟩ | still
    · exact .inl ⟨x,old x mem,some⟩
    · rcases moves.emptied (w.inv s w.ends).order inv.order still with before | now | same
      · exact .inl ⟨s,old s w.ends,before⟩
      · exact .inl ⟨t,new,now⟩
      · exact .inr same
  · rintro rfl
    have consumes : actor a = .consumer := (actorThread a).resolve_left fun own => other own.symm
    rw [moves.consumer consumes]
    exact w.producer rfl
  · rintro rfl
    have produces : actor a = .producer := (actorThread a).resolve_right fun own => other own.symm
    rw [moves.producer produces]
    exact w.consumer rfl

theorem stepKeeps {a} (inv : Inv capacity s) (moved : step s a = some t) : Inv capacity t := by
  cases a with
  | run a =>
    simp only [step] at moved
    split at moved <;> try contradiction
    rename_i quiet
    obtain ⟨now,ran,moved⟩ := Option.bind_eq_some_iff.mp moved
    cases Option.some.inj moved
    have threads := Threads.stepKeeps inv.threads ran
    refine ⟨threads,?_,inv.answers⟩
    intro c p pending
    obtain ⟨call,found,rfl⟩ := Option.map_eq_some_iff.mp pending
    refine (inv.calls c call found).extend threads (stepMoves ran) ?_
    rintro rfl
    simp [quiet] at found
  | begin caller query =>
    simp only [step] at moved
    split at moved <;> try contradiction
    split at moved <;> try contradiction
    cases Option.some.inj moved
    refine ⟨inv.threads,?_,inv.answers⟩
    intro c p pending
    dsimp only at pending
    by_cases own : c = caller
    · subst own
      rw [Function.update_self] at pending
      cases Option.some.inj pending
      exact ⟨rfl,by simpa using inv.threads,by simp,by simp,by simp,by simp,.inr ⟨rfl,rfl⟩,
        fun _ => rfl,fun _ => rfl⟩
    · rw [Function.update_of_ne own] at pending
      exact inv.calls c p pending
  | answer caller =>
    obtain ⟨call,found,moved⟩ := Option.bind_eq_some_iff.mp moved
    cases Option.some.inj moved
    refine ⟨inv.threads,?_,?_⟩
    · intro c p pending
      dsimp only at pending
      by_cases own : c = caller
      · subst own
        simp [Function.update_self] at pending
      · rw [Function.update_of_ne own] at pending
        exact inv.calls c p pending
    · intro answered mem
      rcases List.mem_append.mp mem with old | new
      · exact inv.answers answered old
      · rw [List.mem_singleton.mp new]
        exact ⟨inv.calls caller call found,rfl⟩

theorem runInv {acts} (run : exec step (init capacity) acts = some s) : Inv capacity s :=
  preserved (fun _ _ _ => stepKeeps) run (initInv capacity)

section
variable {caller : Caller} {call : Pending} {last : Threads.State}

theorem Witnessed.fits (w : Witnessed capacity caller call last) {x : Threads.State}
    (mem : x ∈ call.moments) : stored x < slots last := by
  have room := (w.inv x mem).room
  have made := (w.inv x mem).made
  have madeLast := (w.inv last w.ends).made
  unfold stored slots
  omega

theorem Witnessed.balance (w : Witnessed capacity caller call last) {x : Threads.State}
    (mem : x ∈ call.moments) : stored x + released call.first last
      = stored call.first + published call.first x + released x last := by
  have order := (w.inv x mem).order
  have orderFirst := (w.inv _ w.begins).order
  have pushed := w.pushed x mem
  have consumed := w.consumed x mem
  unfold stored published released
  omega

theorem Witnessed.slotsSame (w : Witnessed capacity caller call last) :
    slots call.first = slots last := by
  rw [slots,slots,(w.inv _ w.begins).made,(w.inv _ w.ends).made]

theorem Witnessed.sizeIs (w : Witnessed capacity caller call last) (size : call.query = .size)
    {x : Threads.State} (mem : x ∈ call.moments) :
    stored x = ExactRing.sizeFrom last.ring.capacity call.loaded last.ring.head ↔
      (published call.first x + released x last) % slots last = 0 := by
  have ends := w.inv last w.ends
  have loaded : call.loaded = call.first.pushed.length % slots last := by
    rw [w.loaded,size,← w.slotsSame]
    exact (w.inv _ w.begins).tail
  have order := (w.inv x mem).order
  have pushed := w.pushed x mem
  have consumed := w.consumed x mem
  have total : last.consumed+stored x
      = call.first.pushed.length+(published call.first x+released x last) := by
    unfold stored published released
    omega
  have round : (call.first.pushed.length+(published call.first x+released x last)) % slots last
      = call.first.pushed.length % slots last ↔
      (published call.first x+released x last) % slots last = 0 :=
    Nat.add_modEq_left_iff.trans (Nat.dvd_iff_mod_eq_zero ..)
  rw [ExactRing.sizeFromGap ends.headBelow,loaded,ends.head,eq_comm]
  exact (CyclicIndex.gapCounters (w.fits mem)).trans (by rw [total]; exact round)

theorem Witnessed.notEmpty (w : Witnessed capacity caller call last)
    (apart : call.first.consumed % slots last ≠ last.pushed.length % slots last ∨
      last.consumed % slots last ≠ call.first.pushed.length % slots last) :
    ∃ x ∈ call.moments, stored x ≠ 0 := by
  rcases w.moved with some | ⟨pushed,consumed⟩
  · exact some
  · refine ⟨call.first,w.begins,fun nothing => ?_⟩
    have order := (w.inv _ w.begins).order
    have same : call.first.consumed = call.first.pushed.length := by unfold stored at nothing; omega
    rw [pushed,consumed,same] at apart
    exact apart.elim (· rfl) (· rfl)

theorem flagTruthful {moments : List Threads.State} {b : Bool}
    (right : b = false → ∃ x ∈ moments, stored x ≠ 0) :
    (∃ x ∈ moments, decide (stored x = 0) = b) ↔ (∃ x ∈ moments, stored x = 0) ∨ b = false := by
  cases b with
  | true => simp
  | false =>
    obtain ⟨x,mem,some⟩ := right rfl
    exact ⟨fun _ => .inr rfl,fun _ => ⟨x,mem,decide_eq_false some⟩⟩

theorem Witnessed.headFirst (w : Witnessed capacity caller call last) :
    call.first.consumed % slots last ≠ last.pushed.length % slots last ↔
      (stored call.first + published call.first last) % slots last ≠ 0 := by
  have order := (w.inv _ w.begins).order
  have pushed := w.pushed last w.ends
  have total : last.pushed.length =
      call.first.consumed+(stored call.first+published call.first last) := by
    unfold stored published
    omega
  rw [total,not_iff_not,eq_comm]
  exact Nat.add_modEq_left_iff.trans (Nat.dvd_iff_mod_eq_zero ..)

theorem Witnessed.tailFirst (w : Witnessed capacity caller call last) :
    last.consumed % slots last ≠ call.first.pushed.length % slots last ↔
      stored call.first % slots last ≠ released call.first last % slots last := by
  have order := (w.inv _ w.begins).order
  have consumed := w.consumed last w.ends
  have gone : last.consumed = call.first.consumed+released call.first last := by
    unfold released
    omega
  have there : call.first.pushed.length = call.first.consumed+stored call.first := by
    unfold stored
    omega
  rw [gone,there,not_iff_not,eq_comm]
  exact ⟨Nat.ModEq.add_left_cancel' _,Nat.ModEq.add_left _⟩

end

section
variable {a : Answered}

theorem truthfulSize (w : Witnessed capacity a.caller a.call a.last)
    (reply : a.reply = a.call.query.reply a.call.loaded a.last.ring) (query : a.call.query = .size) :
    Truthful a ↔ ∃ x ∈ a.call.moments,
      (published a.call.first x + released x a.last) % slots a.last = 0 := by
  unfold Truthful
  rw [reply,query]
  exact exists_congr fun x => and_congr_right (w.sizeIs query)

theorem truthfulHeadFirst (w : Witnessed capacity a.caller a.call a.last)
    (reply : a.reply = a.call.query.reply a.call.loaded a.last.ring)
    (query : a.call.query = .emptyHeadFirst) : Truthful a ↔ (∃ x ∈ a.call.moments, stored x = 0) ∨
      (stored a.call.first + published a.call.first a.last) % slots a.last ≠ 0 := by
  have loaded : a.call.loaded = a.call.first.consumed % slots a.last := by
    rw [w.loaded,query,← w.slotsSame]
    exact (w.inv _ w.begins).head
  have said : decide (a.call.loaded = a.last.ring.tail) = false ↔
      a.call.first.consumed % slots a.last ≠ a.last.pushed.length % slots a.last := by
    rw [decide_eq_false_iff_not,loaded,(w.inv _ w.ends).tail]
  unfold Truthful
  rw [reply,query]
  refine (flagTruthful fun no => w.notEmpty (.inl (said.mp no))).trans ?_
  exact or_congr_right (said.trans w.headFirst)

theorem truthfulTailFirst (w : Witnessed capacity a.caller a.call a.last)
    (reply : a.reply = a.call.query.reply a.call.loaded a.last.ring)
    (query : a.call.query = .emptyTailFirst) : Truthful a ↔ (∃ x ∈ a.call.moments, stored x = 0) ∨
      stored a.call.first % slots a.last ≠ released a.call.first a.last % slots a.last := by
  have loaded : a.call.loaded = a.call.first.pushed.length % slots a.last := by
    rw [w.loaded,query,← w.slotsSame]
    exact (w.inv _ w.begins).tail
  have said : decide (a.last.ring.head = a.call.loaded) = false ↔
      a.last.consumed % slots a.last ≠ a.call.first.pushed.length % slots a.last := by
    rw [decide_eq_false_iff_not,loaded,(w.inv _ w.ends).head]
  unfold Truthful
  rw [reply,query]
  refine (flagTruthful fun no => w.notEmpty (.inr (said.mp no))).trans ?_
  exact or_congr_right (said.trans w.tailFirst)

theorem undisturbedTruthful (w : Witnessed capacity a.caller a.call a.last)
    (reply : a.reply = a.call.query.reply a.call.loaded a.last.ring) (quiet : Undisturbed a) :
    Truthful a := by
  have fitsFirst := w.fits w.begins
  unfold Undisturbed at quiet
  cases query : a.call.query with
  | size =>
    simp only [query] at quiet
    obtain ⟨x,mem,pushes,pops⟩ := quiet
    exact (truthfulSize w reply query).mpr ⟨x,mem,by rw [pushes,pops,Nat.zero_mod]⟩
  | emptyTailFirst =>
    simp only [query] at quiet
    refine (truthfulTailFirst w reply query).mpr ?_
    rcases quiet with ⟨x,mem,pushes,pops⟩ | few
    · have balance := w.balance mem
      by_cases nothing : stored x = 0
      · exact .inl ⟨x,mem,nothing⟩
      · refine .inr ?_
        rw [Nat.mod_eq_of_lt fitsFirst,Nat.mod_eq_of_lt (by omega)]
        omega
    · refine .inr ?_
      rw [Nat.mod_eq_of_lt fitsFirst,Nat.mod_eq_of_lt (by omega)]
      omega
  | emptyHeadFirst =>
    simp only [query] at quiet
    refine (truthfulHeadFirst w reply query).mpr ?_
    have below : stored a.call.first + published a.call.first a.last < slots a.last :=
      Nat.lt_succ_of_le quiet
    by_cases nothing : stored a.call.first = 0
    · exact .inl ⟨_,w.begins,nothing⟩
    · refine .inr ?_
      rw [Nat.mod_eq_of_lt below]
      omega

theorem ownUndisturbed (w : Witnessed capacity a.caller a.call a.last)
    (own : a.caller = .producer ∨ a.caller = .consumer) : Undisturbed a := by
  have balance := w.balance w.ends
  have fits := w.fits w.ends
  have fitsFirst := w.fits w.begins
  have none : released a.last a.last = 0 := Nat.sub_self _
  have still : published a.call.first a.last = 0 ∨ released a.call.first a.last = 0 := by
    unfold published released
    rcases own with own | own
    · have := w.producer own
      omega
    · have := w.consumer own
      omega
  have popsFirst : PopsFirst a := by
    rcases still with pushes | pops
    · exact ⟨a.last,w.ends,pushes,none⟩
    · exact ⟨a.call.first,w.begins,Nat.sub_self _,pops⟩
  unfold Undisturbed
  unfold slots at fits fitsFirst
  cases a.call.query with
  | size => exact popsFirst
  | emptyTailFirst => exact .inl popsFirst
  | emptyHeadFirst =>
    show stored a.call.first + published a.call.first a.last ≤ a.last.ring.capacity
    omega

theorem truthfulUndisturbed (w : Witnessed capacity a.caller a.call a.last)
    (reply : a.reply = a.call.query.reply a.call.loaded a.last.ring)
    (tailFirst : a.call.query ≠ .emptyHeadFirst)
    (there : released a.call.first a.last ≤ stored a.call.first) (truthful : Truthful a) :
    Undisturbed a := by
  have fitsFirst := w.fits w.begins
  unfold Undisturbed
  cases query : a.call.query with
  | size =>
    obtain ⟨x,mem,lap⟩ := (truthfulSize w reply query).mp truthful
    have balance := w.balance mem
    have fits := w.fits mem
    rw [Nat.mod_eq_of_lt (by omega)] at lap
    exact ⟨x,mem,by omega,by omega⟩
  | emptyTailFirst =>
    rcases Nat.lt_or_eq_of_le there with few | all
    · exact .inr few
    · refine .inl ?_
      rcases (truthfulTailFirst w reply query).mp truthful with ⟨x,mem,nothing⟩ | apart
      · have balance := w.balance mem
        exact ⟨x,mem,by omega,by omega⟩
      · exact absurd (by rw [all]) apart
  | emptyHeadFirst => exact absurd query tailFirst

end

theorem sizeRaceUndisturbed (capacity : Nat) (acts : List Action) (s : State)
    (run : exec step (init capacity) acts = some s) : ∀ a ∈ s.answers,
      (Undisturbed a → Truthful a) ∧ (a.caller = .producer ∨ a.caller = .consumer → Undisturbed a) ∧
      (a.call.query ≠ .emptyHeadFirst → released a.call.first a.last ≤ stored a.call.first →
        Truthful a → Undisturbed a) := by
  intro a mem
  obtain ⟨w,reply⟩ := (runInv run).answers a mem
  exact ⟨undisturbedTruthful w reply,ownUndisturbed w,truthfulUndisturbed w reply⟩

theorem countUntrue {a : Answered} {n : Nat} {counts : List Nat} (told : a.reply = .count n)
    (seen : a.call.moments.map stored = counts) (never : n ∉ counts) : ¬ Truthful a := by
  unfold Truthful
  rw [told]
  rintro ⟨x,mem,same⟩
  rw [← seen] at never
  exact never (List.mem_map.mpr ⟨x,mem,same⟩)

theorem emptyUntrue {a : Answered} {counts : List Nat} (told : a.reply = .flag true)
    (seen : a.call.moments.map stored = counts) (never : 0 ∉ counts) : ¬ Truthful a := by
  unfold Truthful
  rw [told]
  rintro ⟨x,mem,nothing⟩
  rw [← seen] at never
  exact never (List.mem_map.mpr ⟨x,mem,of_decide_eq_true nothing⟩)

def wholePush (value : CInt) : List Action :=
  [.run (.push value),.run .produce,.run .produce,.run .produce]

def wholePop : List Action := [.run (.pop none),.run .consume,.run .consume]

def lateHead : List Action :=
  [.begin (.other 0) .size] ++ wholePush 5 ++ wholePop ++ [.answer (.other 0)]

def lateTail : List Action :=
  wholePush 5 ++ [.begin (.other 0) .emptyHeadFirst] ++ wholePush 6 ++ wholePop ++ wholePush 7 ++
    [.answer (.other 0)]

theorem neverTrue :
    (∃ s a, exec step (init 2) lateHead = some s ∧ s.answers = [a] ∧ a.reply = .count 2 ∧
      a.call.moments.map stored = [0,0,0,0,1,1,1,0] ∧ ¬ Truthful a) ∧
    (∃ s a, exec step (init 2) lateTail = some s ∧ s.answers = [a] ∧ a.reply = .flag true ∧
      a.call.moments.map stored = [1,1,1,1,2,2,2,1,1,1,1,2] ∧ ¬ Truthful a) := by
  constructor
  · exact ⟨_,_,rfl,rfl,rfl,rfl,countUntrue rfl rfl (by decide)⟩
  · exact ⟨_,_,rfl,rfl,rfl,rfl,emptyUntrue rfl rfl (by decide)⟩

theorem sizeRaceUndisturbedAtTwo : ∃ s a, exec step (init 2)
      (wholePush 5 ++ [.begin (.other 0) .size] ++ wholePop ++ wholePush 6 ++
        [.answer (.other 0)]) = some s ∧
    s.answers = [a] ∧ a.reply = .count 0 ∧ a.call.moments.map stored = [1,1,1,0,0,0,0,1] ∧
    Truthful a :=
  ⟨_,_,rfl,rfl,rfl,rfl,(sizeRaceUndisturbed 2
    (wholePush 5 ++ [.begin (.other 0) .size] ++ wholePop ++ wholePush 6 ++ [.answer (.other 0)]) _ rfl _
    (List.mem_singleton_self _)).1 ⟨_,List.mem_cons_of_mem _ (List.mem_cons_of_mem _
      (List.mem_cons_of_mem _ List.mem_cons_self)),rfl,rfl⟩⟩

end FastReplay.Monitoring
