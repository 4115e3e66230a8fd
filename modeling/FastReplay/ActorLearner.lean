import FastReplay.ExactRing
import FastReplay.GuardedRun
import FastReplay.SlidingWindow

/-! One thread in add, another in sample, every ring call and every array access a
step of its own. An array entry is known by the add that wrote it. -/
namespace FastReplay.ActorLearner
open GuardedRun

inductive Field where
  | observation
  | nextObservation
  | action
  | reward
  | done
  deriving DecidableEq, Repr

def Field.all : List Field := [.observation,.nextObservation,.action,.reward,.done]

theorem Field.inAll (f : Field) : f ∈ Field.all := by cases f <;> decide

inductive Actor where
  | idle
  | evicting
  | pushing
  | writing (left : List Field)
  deriving DecidableEq, Repr

/- What sample has gathered: for each array read, the entries of its rows. since
counts the adds whose writes were finished when the first array was read. -/
structure Sample where
  rows : List Nat
  since : Nat
  read : List (Field × List (Option Nat))
  deriving DecidableEq, Repr

inductive Learner where
  | idle
  | drawn (physInds : List Nat)
  | gathering (left : List Field) (sample : Sample)
  deriving DecidableEq, Repr

structure State where
  ring : ExactRing
  cells : Field → Nat → Option Nat
  pos : Nat
  full : Bool
  adds : Nat
  actor : Actor
  learner : Learner
  results : List Sample

def init (n : Nat) : State where
  ring := ExactRing.construct n
  cells := fun _ _ => none
  pos := 0
  full := false
  adds := 0
  actor := .idle
  learner := .idle
  results := []

inductive Action where
  | add
  | act
  | sample (std : StdVector) (gen : Generator) (batchSize : Nat)
  | learn

def beginAdd (s : State) : Option State := match s.actor with
  | .idle =>
    some { s with actor := if s.ring.size = s.ring.capacity then .evicting else .pushing }
  | _ => none

/- A position that int cannot hold is a TypeError, and the actor is done with that add. -/
def act (n : Nat) (s : State) : Option State := match s.actor with
  | .idle => none
  | .evicting => some { s with ring := (s.ring.pop (some 0)).2, actor := .pushing }
  | .pushing =>
    if s.pos < 2^31 then
      some { s with
        ring := (s.ring.push (Int32.ofNat s.pos)).2
        actor := .writing Field.all }
    else some { s with actor := .idle }
  | .writing (f::left) => some { s with
      cells := fun g r => if g = f ∧ r = s.pos then some s.adds else s.cells g r
      actor := .writing left }
  | .writing [] => some { s with
      pos := (s.pos+1) % n
      full := s.full || decide (s.pos+1 = n)
      adds := s.adds+1
      actor := .idle }

def beginSample (s : State) (std : StdVector) (gen : Generator) (batchSize : Nat) : Option State :=
  match s.learner with
  | .idle => match s.ring.sampleIndices std gen batchSize with
    | .ok physInds => some { s with learner := .drawn physInds }
    | .error _ => some s
  | _ => none

def finished (s : State) : Nat := if s.actor = .writing [] then s.adds+1 else s.adds

/- gathers: the arrays in the order in which _get_samples reads them. -/
def learn (gathers : List Field) (s : State) : Option State := match s.learner with
  | .idle => none
  | .drawn physInds => do
      let batchInds ← physInds.mapM fun i => s.ring.buf[i]?
      some { s with learner := .gathering gathers ⟨batchInds.map fun v => v.toInt.toNat,0,[]⟩ }
  | .gathering (f::left) sample => some { s with
      learner := .gathering left { sample with
        since := if sample.read = [] then finished s else sample.since
        read := sample.read ++ [(f,sample.rows.map (s.cells f))] } }
  | .gathering [] sample => some { s with results := s.results ++ [sample], learner := .idle }

def step (n : Nat) (gathers : List Field) (s : State) : Action → Option State
  | .add => beginAdd s
  | .act => act n s
  | .sample std gen batchSize => beginSample s std gen batchSize
  | .learn => learn gathers s

/- Every array was read, and each row is what one add wrote, all of it before the
row was first read. -/
def Whole (sample : Sample) : Prop :=
  (∀ f, f ∈ sample.read.map Prod.fst) ∧ ∀ i, i < sample.rows.length → ∃ k, k < sample.since ∧
    ∀ f cells, (f,cells) ∈ sample.read → cells[i]? = some (some k)

/- The row that the actor has announced but not, or only in part, written. -/
def Unready (s : State) (r : Nat) : Prop := match s.actor with
  | .writing left => r = s.pos ∧ left ≠ [] ∧ (left = Field.all → s.full = false)
  | _ => False

/- The first gather finds no such row among those drawn, and add writes no array of a
drawn row between the first gather and the gather of that array. -/
def Undisturbed (s : State) : Action → Prop
  | .learn => match s.learner with
    | .gathering (_::_) sample => sample.read = [] → ∀ r ∈ sample.rows, ¬ Unready s r
    | _ => True
  | .act => match s.actor,s.learner with
    | .writing (f::_),.gathering left sample => sample.read ≠ [] → s.pos ∈ sample.rows → f ∉ left
    | _,_ => True
  | _ => True

def Lists (n : Nat) (s : State) (a b : Nat) : Prop :=
  s.ring.Stores ((List.range' a (b-a)).map fun j => Int32.ofNat (j % n))

def RingAt (n : Nat) (s : State) : Prop := match s.actor with
  | .idle => Lists n s (s.adds-n) s.adds
  | .evicting => Lists n s (s.adds-n) s.adds ∧ n ≤ s.adds
  | .pushing => Lists n s (s.adds+1-n) s.adds
  | .writing _ => Lists n s (s.adds+1-n) (s.adds+1)

def announced (s : State) : Nat := match s.actor with
  | .writing _ => s.adds+1
  | _ => s.adds

def Written (s : State) (f : Field) : Prop := match s.actor with
  | .writing left => f ∉ left
  | _ => False

def Announced (n : Nat) (s : State) (r : Nat) : Prop := ∃ j, j < announced s ∧ r = j % n

def Listed (n : Nat) (s : State) (i : Nat) : Prop :=
  ∃ j, j < announced s ∧ s.ring.buf[i]? = some (Int32.ofNat (j % n))

def LearnerAt (n : Nat) (gathers : List Field) (s : State) : Prop := match s.learner with
  | .idle => True
  | .drawn physInds => ∀ i ∈ physInds, Listed n s i
  | .gathering left sample => (∀ r ∈ sample.rows, Announced n s r) ∧
      sample.read.map Prod.fst ++ left = gathers ∧ (sample.read ≠ [] → sample.since ≤ finished s)

structure Inv (n : Nat) (gathers : List Field) (s : State) : Prop where
  positive : 0 < n
  made : s.ring.capacity = n
  pos : s.pos = s.adds % n
  full : s.full = decide (n ≤ s.adds)
  words : ∀ j, j < announced s → j % n < 2^31
  ring : RingAt n s
  -- where the entries of the last n adds are, and what lies beyond them
  kept : ∀ f j, j < s.adds → s.adds ≤ j+n → ¬ (j % n = s.pos ∧ Written s f) →
    s.cells f (j % n) = some j
  fresh : ∀ f, Written s f → s.cells f s.pos = some s.adds
  blank : ∀ f, s.adds < n → ¬ Written s f → s.cells f s.pos = none
  empty : ∀ f r, s.adds < r → r < n → s.cells f r = none
  suffix : ∀ left, s.actor = .writing left → left.IsSuffix Field.all
  learner : LearnerAt n gathers s

variable {n : Nat} {gathers : List Field} {s t : State}

theorem initInv (positive : 0 < n) : Inv n gathers (init n) where
  positive := positive
  made := rfl
  pos := by simp [init]
  full := (decide_eq_false (by simp [init]; omega)).symm
  words := by
    intro j below
    simp [announced,init] at below
  ring := by simpa [RingAt,Lists,init] using ExactRing.constructStores n
  kept := by
    intro f j below
    simp [init] at below
  fresh := by
    intro f written
    contradiction
  blank := fun _ _ _ => rfl
  empty := fun _ _ _ _ => rfl
  suffix := by
    intro left writing
    contradiction
  learner := trivial

theorem LearnerAt.later (learner : LearnerAt n gathers s) (same : t.learner = s.learner)
    (more : announced s ≤ announced t) (finish : finished s ≤ finished t)
    (listed : ∀ i, Listed n s i → Listed n t i) : LearnerAt n gathers t := by
  unfold LearnerAt at learner ⊢
  rw [same]
  split at learner
  · trivial
  · exact fun i mem => listed i (learner i mem)
  · refine ⟨fun r mem => ?_,learner.2.1,fun begun => Nat.le_trans (learner.2.2 begun) finish⟩
    obtain ⟨j,below,row⟩ := learner.1 r mem
    exact ⟨j,by omega,row⟩

theorem Listed.sameBuf {i : Nat} (listed : Listed n s i) (same : t.ring.buf = s.ring.buf)
    (more : announced s ≤ announced t) : Listed n t i := by
  obtain ⟨j,below,found⟩ := listed
  exact ⟨j,by omega,by rw [same]; exact found⟩

theorem notWritten (idle : ∀ left, s.actor ≠ .writing left) (f : Field) : ¬ Written s f := by
  unfold Written
  split
  · rename_i left writing
    exact absurd writing (idle left)
  · exact id

theorem finishedBefore (idle : s.actor ≠ .writing []) : finished s = s.adds := if_neg idle

theorem announcedBefore (idle : ∀ left, s.actor ≠ .writing left) : announced s = s.adds := by
  unfold announced
  split
  · rename_i left writing
    exact absurd writing (idle left)
  · rfl

theorem Inv.waiting (inv : Inv n gathers s) (idle : ∀ left, s.actor ≠ .writing left)
    {ring : ExactRing} {actor : Actor} (idle' : ∀ left, actor ≠ .writing left)
    (made : ring.capacity = s.ring.capacity) (buf : ring.buf = s.ring.buf)
    (lists : RingAt n { s with ring := ring, actor := actor }) :
    Inv n gathers { s with ring := ring, actor := actor } := by
  have notYet := notWritten (s := { s with ring := ring, actor := actor }) idle'
  have finish := finishedBefore (s := { s with ring := ring, actor := actor }) (idle' [])
  have announce := announcedBefore (s := { s with ring := ring, actor := actor }) idle'
  have more := (announcedBefore idle).trans announce.symm
  have done := (finishedBefore (idle [])).trans finish.symm
  exact { inv with
    made := made.trans inv.made
    words := by rw [← more]; exact inv.words
    ring := lists
    kept := fun f j below recent _ =>
      inv.kept f j below recent fun both => notWritten idle f both.2
    fresh := fun f written => absurd written (notYet f)
    blank := fun f filling _ => inv.blank f filling (notWritten idle f)
    suffix := fun left writing => absurd writing (idle' left)
    learner := inv.learner.later rfl (Nat.le_of_eq more) (Nat.le_of_eq done)
      fun i listed => listed.sameBuf buf (Nat.le_of_eq more) }

theorem finishedLeast (t : State) {k : Nat} (same : t.adds = k) : k ≤ finished t := by
  unfold finished
  split <;> omega

theorem beginAddKeeps (inv : Inv n gathers s) (moved : beginAdd s = some t) : Inv n gathers t := by
  have ring := inv.ring
  have made := inv.made
  unfold beginAdd at moved
  split at moved <;> try contradiction
  rename_i idle
  cases Option.some.inj moved
  simp only [RingAt,idle,Lists] at ring
  have size := ring.size
  simp only [List.length_map,List.length_range'] at size
  refine inv.waiting (by simp [idle]) (by intro left; split <;> simp) rfl rfl ?_
  unfold RingAt Lists
  by_cases full : s.ring.size = s.ring.capacity
  · simp only [if_pos full]
    exact ⟨ring,by omega⟩
  · simp only [if_neg full]
    have room : s.adds < n := by
      have fits := ring.fits
      simp only [List.length_map,List.length_range'] at fits
      omega
    have none : s.adds-n = 0 ∧ s.adds+1-n = 0 := by omega
    rw [none.2]
    rw [none.1] at ring
    exact ring

theorem evictingKeeps (inv : Inv n gathers s) (pc : s.actor = .evicting) (moved : act n s = some t) :
    Inv n gathers t := by
  have ring := inv.ring
  simp only [RingAt,pc] at ring
  simp only [act,pc] at moved
  cases Option.some.inj moved
  obtain ⟨lists,full⟩ := ring
  refine inv.waiting (by simp [pc]) (by simp) (s.ring.popCapacity _) (s.ring.popBuf _) ?_
  have rest := (lists.pop (some 0)).2
  have first : s.adds-n+1 = s.adds+1-n := by omega
  have count : s.adds-(s.adds-n)-1 = s.adds-(s.adds+1-n) := by omega
  rw [BoundedQueue.pollRest,← List.map_drop,List.drop_range',Nat.mul_one,first,count] at rest
  exact rest

theorem pushedKeeps (inv : Inv n gathers s) (pc : s.actor = .pushing) (word : s.pos < 2^31) :
    Inv n gathers { s with
      ring := (s.ring.push (Int32.ofNat s.pos)).2
      actor := .writing Field.all } := by
  have lists := inv.ring
  have positive := inv.positive
  have made := inv.made
  have idle : ∀ left, s.actor ≠ .writing left := by simp [pc]
  have before := announcedBefore idle
  simp only [RingAt,pc,Lists] at lists
  have room : ((List.range' (s.adds+1-n) (s.adds-(s.adds+1-n))).map
      fun j => Int32.ofNat (j % n)).length < s.ring.capacity := by
    simp only [List.length_map,List.length_range']
    omega
  have pushed := (lists.pushRoom room (Int32.ofNat s.pos)).2
  have grown : s.adds+1-(s.adds+1-n) = s.adds-(s.adds+1-n)+1 := by omega
  have last : s.adds+1-n+(s.adds-(s.adds+1-n)) = s.adds := by omega
  have notYet : ∀ f, ¬ Written { s with
      ring := (s.ring.push (Int32.ofNat s.pos)).2
      actor := .writing Field.all } f := fun f written => written f.inAll
  refine { inv with
    made := (s.ring.pushCapacity _).trans made
    words := ?_
    ring := ?_
    kept := fun f j below recent _ => inv.kept f j below recent fun both => notWritten idle f both.2
    fresh := fun f written => absurd written (notYet f)
    blank := fun f filling _ => inv.blank f filling (notWritten idle f)
    suffix := by rintro left ⟨⟩; exact List.suffix_refl _
    learner := inv.learner.later rfl (by rw [before]; exact Nat.le_succ _) ?_ ?_ }
  · intro j below
    rcases Nat.lt_or_ge j s.adds with old | new
    · exact inv.words j (by rw [before]; exact old)
    · have here : j = s.adds := Nat.le_antisymm (Nat.le_of_lt_succ below) new
      rw [here,← inv.pos]
      exact word
  · simp only [RingAt,Lists]
    rw [grown,List.range'_concat,List.map_append,Nat.one_mul,last]
    rw [inv.pos] at pushed ⊢
    exact pushed
  · rw [finishedBefore (idle [])]
    exact finishedLeast _ rfl
  · rintro i ⟨j,below,found⟩
    rw [before] at below
    rcases ExactRing.pushSlot (Int32.ofNat s.pos) found with same | new
    · exact ⟨j,Nat.lt_succ_of_lt below,same⟩
    · exact ⟨s.adds,Nat.lt_succ_self _,by rw [← inv.pos]; exact new⟩

theorem refusedKeeps (inv : Inv n gathers s) (pc : s.actor = .pushing) (word : ¬ s.pos < 2^31) :
    Inv n gathers { s with actor := .idle } := by
  have lists := inv.ring
  have positive := inv.positive
  have idle : ∀ left, s.actor ≠ .writing left := by simp [pc]
  simp only [RingAt,pc] at lists
  have filling : s.adds < n := by
    rcases Nat.lt_or_ge s.adds n with filling | full
    · exact filling
    · have small := inv.words (s.adds-n) (by rw [announcedBefore idle]; omega)
      rw [← Nat.mod_eq_sub_mod full,← inv.pos] at small
      exact absurd small word
  refine inv.waiting idle (by simp) rfl rfl ?_
  have none : s.adds-n = 0 ∧ s.adds+1-n = 0 := by omega
  rw [none.2] at lists
  simp only [RingAt]
  rw [none.1]
  exact lists

theorem pushingKeeps (inv : Inv n gathers s) (pc : s.actor = .pushing) (moved : act n s = some t) :
    Inv n gathers t := by
  simp only [act,pc] at moved
  split at moved
  · rename_i word
    cases Option.some.inj moved
    exact pushedKeeps inv pc word
  · rename_i word
    cases Option.some.inj moved
    exact refusedKeeps inv pc word

theorem suffixNodup {f : Field} {left : List Field} (suffix : (f::left).IsSuffix Field.all) :
    f ∉ left := by
  have distinct : (f::left).Nodup := suffix.sublist.nodup (by decide)
  exact (List.nodup_cons.mp distinct).1

theorem writingKeeps {f left} (inv : Inv n gathers s) (pc : s.actor = .writing (f::left))
    (moved : act n s = some t) : Inv n gathers t := by
  have suffix := inv.suffix _ pc
  have once := suffixNodup suffix
  have lists := inv.ring
  have words := inv.words
  have learner := inv.learner
  have written : ∀ g, Written s g ↔ g ∉ f::left := fun g => by simp [Written,pc]
  have pos := inv.pos
  simp only [RingAt,pc] at lists
  simp only [announced,pc] at words
  simp only [act,pc] at moved
  cases Option.some.inj moved
  refine { inv with
    words := words
    ring := lists
    kept := ?_
    fresh := ?_
    blank := ?_
    empty := ?_
    suffix := ?_
    learner := learner.later rfl (by simp [announced,pc]) ?_ ?_ }
  · intro g j below recent free
    dsimp only at below recent free ⊢
    have apart : ¬ (g = f ∧ j % n = s.pos) := by
      intro both
      exact free ⟨both.2,by rw [both.1]; exact once⟩
    rw [if_neg apart]
    refine inv.kept g j below recent fun old => free ⟨old.1,?_⟩
    exact fun mem => (written g).mp old.2 (List.mem_cons_of_mem _ mem)
  · intro g new
    dsimp only
    by_cases same : g = f
    · rw [if_pos ⟨same,rfl⟩]
    · rw [if_neg fun both => same both.1]
      exact inv.fresh g ((written g).mpr fun mem => new ((List.mem_cons.mp mem).resolve_left same))
  · intro g filling notYet
    dsimp only at filling ⊢
    have later : g ∈ left := Classical.not_not.mp notYet
    have apart : g ≠ f := fun same => once (same ▸ later)
    rw [if_neg fun both => apart both.1]
    exact inv.blank g filling fun old => (written g).mp old (List.mem_cons_of_mem _ later)
  · intro g r above below
    dsimp only at above ⊢
    have apart : r ≠ s.pos := by
      rw [pos,Nat.mod_eq_of_lt (by omega)]
      omega
    rw [if_neg fun both => apart both.2]
    exact inv.empty g r above below
  · rintro rest ⟨⟩
    exact (List.suffix_cons f left).trans suffix
  · rw [finishedBefore (by simp [pc])]
    exact finishedLeast _ rfl
  · exact fun i listed => listed.sameBuf rfl (by simp [announced,pc])

theorem advancingKeeps (inv : Inv n gathers s) (pc : s.actor = .writing []) (moved : act n s = some t) :
    Inv n gathers t := by
  have lists := inv.ring
  have words := inv.words
  have learner := inv.learner
  have written : ∀ g, Written s g := fun g => by simp [Written,pc]
  have pos := inv.pos
  simp only [RingAt,pc] at lists
  simp only [announced,pc] at words
  simp only [act,pc] at moved
  cases Option.some.inj moved
  refine { inv with
    pos := by rw [pos,Nat.mod_add_mod]
    full := ?_
    words := words
    ring := lists
    kept := ?_
    fresh := fun f done => by contradiction
    blank := ?_
    empty := fun f r above below => inv.empty f r (by dsimp only at above; omega) below
    suffix := fun left writing => by contradiction
    learner := learner.later rfl (by simp [announced,pc]) (by simp [finished,pc]) ?_ }
  · rw [inv.full,pos,Bool.eq_iff_iff]
    simp only [Bool.or_eq_true,decide_eq_true_eq]
    exact SlidingWindow.fullNext
  · intro f j below recent _
    dsimp only at below recent
    rcases Nat.lt_or_ge j s.adds with old | new
    · refine inv.kept f j old (by omega) fun both => ?_
      have here := both.1
      rw [pos] at here
      have := CyclicIndex.sameSlot here (by omega) (by omega)
      omega
    · have here : j = s.adds := by omega
      rw [here,← pos]
      exact inv.fresh f (written f)
  · intro f filling _
    dsimp only at filling
    have next : (s.pos+1) % n = s.adds+1 := by
      rw [pos,Nat.mod_add_mod,Nat.mod_eq_of_lt filling]
    dsimp only
    rw [next]
    exact inv.empty f _ (by omega) filling
  · exact fun i listed => listed.sameBuf rfl (by simp [announced,pc])

theorem actKeeps (inv : Inv n gathers s) (moved : act n s = some t) : Inv n gathers t := by
  cases pc : s.actor with
  | idle => simp [act,pc] at moved
  | evicting => exact evictingKeeps inv pc moved
  | pushing => exact pushingKeeps inv pc moved
  | writing left =>
    cases left with
    | nil => exact advancingKeeps inv pc moved
    | cons f left => exact writingKeeps inv pc moved

theorem Inv.lists (inv : Inv n gathers s) :
    ∃ a b, b ≤ announced s ∧ Lists n s a b := by
  have ring := inv.ring
  unfold RingAt at ring
  unfold announced
  split at ring
  · exact ⟨_,_,by simp [*],ring⟩
  · exact ⟨_,_,by simp [*],ring.1⟩
  · exact ⟨_,_,by simp [*],ring⟩
  · exact ⟨_,_,by simp [*],ring⟩

theorem Inv.drawn (inv : Inv n gathers s) {std gen batchSize physInds}
    (drawn : s.ring.sampleIndices std gen batchSize = .ok physInds) :
    ∀ i ∈ physInds, Listed n s i := by
  obtain ⟨a,b,most,lists⟩ := inv.lists
  have size := lists.size
  have live := lists.live
  simp only [List.length_map,List.length_range'] at size
  unfold CyclicIndex.Holds at live
  rw [lists.slots] at live
  simp only [List.length_map,List.length_range'] at live
  unfold ExactRing.sampleIndices at drawn
  split at drawn <;> try contradiction
  split at drawn <;> try contradiction
  rename_i nonempty _
  cases Except.ok.inj drawn
  intro i mem
  obtain ⟨draw,_,rfl⟩ := List.mem_map.mp mem
  have offset := gen.inRange (s.ring.size-1) draw
  refine ⟨a+gen.draw (s.ring.size-1) draw,by omega,?_⟩
  rw [live _ (by omega)]
  simp [show gen.draw (s.ring.size-1) draw < b-a by omega]

theorem beginSampleKeeps {std gen batchSize} (inv : Inv n gathers s)
    (moved : beginSample s std gen batchSize = some t) : Inv n gathers t := by
  unfold beginSample at moved
  split at moved <;> try contradiction
  split at moved
  · rename_i physInds drawn
    cases Option.some.inj moved
    exact { inv with learner := inv.drawn drawn }
  · cases Option.some.inj moved
    exact inv

theorem pickedFrom {buf : List CInt} {physInds : List Nat} {values : List CInt} {v : CInt}
    (read : (physInds.mapM fun i => buf[i]?) = some values) (mem : v ∈ values) :
    ∃ i ∈ physInds, buf[i]? = some v := by
  induction physInds generalizing values with
  | nil =>
    simp only [List.mapM_nil,Option.pure_def,Option.some.injEq] at read
    subst read
    contradiction
  | cons i rest ih =>
    simp only [List.mapM_cons,bind,pure,Option.bind_eq_some_iff,Option.some.injEq] at read
    obtain ⟨first,found,later,picked,rfl⟩ := read
    rcases List.mem_cons.mp mem with rfl | old
    · exact ⟨i,List.mem_cons_self,found⟩
    · obtain ⟨j,inside,same⟩ := ih picked old
      exact ⟨j,List.mem_cons_of_mem _ inside,same⟩

theorem gatheredRows {physInds : List Nat} {values : List CInt} (inv : Inv n gathers s)
    (listed : ∀ i ∈ physInds, Listed n s i)
    (read : (physInds.mapM fun i => s.ring.buf[i]?) = some values) :
    ∀ r ∈ values.map (fun v => v.toInt.toNat), Announced n s r := by
  intro r mem
  obtain ⟨v,value,rfl⟩ := List.mem_map.mp mem
  obtain ⟨i,drawn,found⟩ := pickedFrom read value
  obtain ⟨j,below,row⟩ := listed i drawn
  cases Option.some.inj (found.symm.trans row)
  refine ⟨j,below,?_⟩
  rw [Int32.toInt_ofNat_of_lt (inv.words j below)]
  exact Int.toNat_natCast _

theorem learnKeeps (inv : Inv n gathers s) (moved : learn gathers s = some t) : Inv n gathers t := by
  have learner := inv.learner
  unfold learn at moved
  split at moved <;> try contradiction
  · rename_i physInds pc
    simp only [LearnerAt,pc] at learner
    obtain ⟨values,read,moved⟩ := Option.bind_eq_some_iff.mp moved
    have rows := gatheredRows inv learner read
    cases Option.some.inj moved
    exact { inv with learner := ⟨rows,rfl,fun begun => absurd rfl begun⟩ }
  · rename_i f left sample pc
    simp only [LearnerAt,pc] at learner
    cases Option.some.inj moved
    refine { inv with learner := ⟨learner.1,by simp [← learner.2.1],fun _ => ?_⟩ }
    dsimp only
    split
    · exact Nat.le_refl _
    · exact learner.2.2 (by assumption)
  · cases Option.some.inj moved
    exact { inv with learner := trivial }

theorem stepKeeps {a} (inv : Inv n gathers s) (moved : step n gathers s a = some t) :
    Inv n gathers t := by
  cases a with
  | add => exact beginAddKeeps inv moved
  | act => exact actKeeps inv moved
  | sample std gen batchSize => exact beginSampleKeeps inv moved
  | learn => exact learnKeeps inv moved

theorem runInv {acts} (positive : 0 < n) (run : exec (step n gathers) (init n) acts = some s) :
    Inv n gathers s :=
  preserved (fun _ _ _ => stepKeeps) run (initInv positive)

end FastReplay.ActorLearner
