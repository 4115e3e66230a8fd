import FastReplay.EffectOrder
import FastReplay.GuardedRun

/-! Objects whose calls run under one lock, made by any number of threads. A call takes
effect with its last access, and other calls may run between its unlock and its return. -/
namespace LockedObject
open GuardedRun CallHistory EffectOrder

structure Code (κ ρ π σ : Type) where
  start : κ → π
  access : σ → π → Option (σ × (π ⊕ ρ))

inductive Phase (π ρ : Type) where
  | waiting
  | inside (stage : π)
  | leaving (answer : ρ)
  | returning (answer : ρ)

def Phase.inLock {π ρ : Type} : Phase π ρ → Bool
  | .inside _ | .leaving _ => true
  | .waiting | .returning _ => false

structure State (θ κ ρ π σ : Type) where
  shared : σ
  holder : Option θ
  calls : θ → Option (Issued κ × Phase π ρ)
  events : List (Event (Issued κ) ρ)

def init {θ κ ρ π σ : Type} (shared : σ) : State θ κ ρ π σ := ⟨shared,none,fun _ => none,[]⟩

inductive Action (θ κ : Type) where
  | call (c : κ)
  | go (thread : θ)

section
variable {θ κ ρ π σ : Type} [DecidableEq θ]

def begin (owner : κ → θ) (s : State θ κ ρ π σ) (c : κ) : Option (State θ κ ρ π σ) :=
  match s.calls (owner c) with
  | some _ => none
  | none => some { s with
      calls := Function.update s.calls (owner c) (some (⟨(begun s.events).length,c⟩,.waiting))
      events := s.events ++ [.began ⟨(begun s.events).length,c⟩] }

def State.put (s : State θ κ ρ π σ) (thread : θ) (issued : Issued κ) (phase : Phase π ρ) :
    State θ κ ρ π σ := { s with calls := Function.update s.calls thread (some (issued,phase)) }

def go (code : Code κ ρ π σ) (s : State θ κ ρ π σ) (thread : θ) : Option (State θ κ ρ π σ) :=
  match s.calls thread with
  | none => none
  | some (issued,.waiting) => match s.holder with
    | some _ => none
    | none => some { s.put thread issued (.inside (code.start issued.call)) with holder := some thread }
  | some (issued,.inside stage) => match code.access s.shared stage with
    | none => none
    | some (shared,.inl next) => some { s.put thread issued (.inside next) with shared := shared }
    | some (shared,.inr answer) => some { s.put thread issued (.leaving answer) with shared := shared }
  | some (issued,.leaving answer) => some { s.put thread issued (.returning answer) with holder := none }
  | some (issued,.returning answer) => some { s with
      calls := Function.update s.calls thread none
      events := s.events ++ [.returned issued answer] }

def step (owner : κ → θ) (code : Code κ ρ π σ) (s : State θ κ ρ π σ) :
    Action θ κ → Option (State θ κ ρ π σ)
  | .call c => begin owner s c
  | .go thread => go code s thread

end

inductive Finishes {κ ρ π σ : Type} (code : Code κ ρ π σ) : σ → π → ρ → σ → Prop
  | last {s t : σ} {stage : π} {answer : ρ} (accessed : code.access s stage = some (t,.inr answer)) :
      Finishes code s stage answer t
  | more {s t u : σ} {stage next : π} {answer : ρ} (accessed : code.access s stage = some (t,.inl next))
      (rest : Finishes code t next answer u) : Finishes code s stage answer u

/- Each call by itself does on the memory what the object does on the value it represents. -/
def Serves {κ ρ π σ τ : Type} (code : Code κ ρ π σ) (object : τ → κ → ρ × τ)
    (represents : σ → τ → Prop) : Prop := ∀ s now c, represents s now →
  ∃ t, Finishes code s (code.start c) (object now c).1 t ∧ represents t (object now c).2

section
variable {θ κ ρ π σ τ : Type} {owner : κ → θ} {code : Code κ ρ π σ} {object : τ → κ → ρ × τ}
  {represents : σ → τ → Prop} {start now : τ} {shared : σ} {holder : Option θ} {thread : θ}
  {issued : Issued κ} {effects more : List (Issued κ × ρ)}

def numbered (object : τ → κ → ρ × τ) (now : τ) (issued : Issued κ) : ρ × τ := object now issued.call

def PhaseAt (code : Code κ ρ π σ) (object : τ → κ → ρ × τ) (represents : σ → τ → Prop) (shared : σ)
    (holder : Option θ) (effects : List (Issued κ × ρ)) (now : τ) (thread : θ) (issued : Issued κ) :
    Phase π ρ → Prop
  | .waiting => holder ≠ some thread ∧ issued ∉ effects.map Prod.fst
  | .inside stage => holder = some thread ∧ issued ∉ effects.map Prod.fst ∧
      ∃ t, Finishes code shared stage (object now issued.call).1 t ∧
        represents t (object now issued.call).2
  | .leaving answer => holder = some thread ∧ (issued,answer) ∈ effects ∧ represents shared now
  | .returning answer => holder ≠ some thread ∧ (issued,answer) ∈ effects

structure Inv (owner : κ → θ) (code : Code κ ρ π σ) (object : τ → κ → ρ × τ)
    (represents : σ → τ → Prop) (start : τ) (s : State θ κ ρ π σ) (effects : List (Issued κ × ρ))
    (now : τ) : Prop where
  books : Books owner (numbered object) start s.calls s.events effects now
  free : s.holder = none → represents s.shared now
  held : ∀ thread, s.holder = some thread → s.calls thread ≠ none
  phases : ∀ thread issued phase, s.calls thread = some (issued,phase) →
    PhaseAt code object represents s.shared s.holder effects now thread issued phase

theorem initInv (owner : κ → θ) (code : Code κ ρ π σ) (object : τ → κ → ρ × τ)
    (represented : represents shared start) :
    Inv owner code object represents start (init shared) [] start where
  books := booksNone _ _ _
  free _ := represented
  held _ held := by contradiction
  phases _ _ _ here := by contradiction

theorem Inv.holds {s : State θ κ ρ π σ} {phase : Phase π ρ}
    (inv : Inv owner code object represents start s effects now)
    (here : s.calls thread = some (issued,phase)) (inside : phase.inLock = true) :
    s.holder = some thread := by
  have at' := inv.phases thread issued phase here
  cases phase with
  | inside stage => exact at'.1
  | leaving answer => exact at'.1
  | waiting => contradiction
  | returning answer => contradiction

theorem PhaseAt.elsewhere {phase : Phase π ρ} {shared' : σ} {holder' : Option θ} {now' : τ}
    (at' : PhaseAt code object represents shared holder effects now thread issued phase)
    (outside : holder ≠ some thread) (still : holder' ≠ some thread) (grown : effects ⊆ more)
    (own : issued ∉ effects.map Prod.fst → issued ∉ more.map Prod.fst) :
    PhaseAt code object represents shared' holder' more now' thread issued phase := by
  cases phase with
  | waiting => exact ⟨still,own at'.2⟩
  | inside stage => exact absurd at'.1 outside
  | leaving answer => exact absurd at'.1 outside
  | returning answer => exact ⟨still,grown at'.2⟩

variable [DecidableEq θ] {s t : State θ κ ρ π σ}

theorem phasesUpdate {shared' : σ} {holder' : Option θ} {now' : τ}
    {calls : θ → Option (Issued κ × Phase π ρ)}
    {here : Option (Issued κ × Phase π ρ)}
    (own : ∀ issued phase, here = some (issued,phase) →
      PhaseAt code object represents shared' holder' more now' thread issued phase)
    (others : ∀ other, other ≠ thread → ∀ issued phase, calls other = some (issued,phase) →
      PhaseAt code object represents shared' holder' more now' other issued phase) :
    ∀ other issued phase, Function.update calls thread here other = some (issued,phase) →
      PhaseAt code object represents shared' holder' more now' other issued phase := by
  intro other issued phase there
  by_cases same : other = thread
  · subst same
    rw [Function.update_self] at there
    exact own issued phase there
  · rw [Function.update_of_ne same] at there
    exact others other same issued phase there

theorem heldUpdate {holder : Option θ} {calls : θ → Option (Issued κ × Phase π ρ)}
    {call : Issued κ × Phase π ρ}
    (held : ∀ other, holder = some other → other = thread ∨ calls other ≠ none) :
    ∀ other, holder = some other → Function.update calls thread (some call) other ≠ none := by
  intro other holds
  by_cases same : other = thread
  · subst same
    rw [Function.update_self]
    exact Option.some_ne_none _
  · rw [Function.update_of_ne same]
    exact (held other holds).resolve_left same

theorem beginKeeps {c : κ} (inv : Inv owner code object represents start s effects now)
    (moved : begin owner s c = some t) : Inv owner code object represents start t effects now := by
  unfold begin at moved
  split at moved <;> try contradiction
  rename_i free
  cases Option.some.inj moved
  have apart : s.holder ≠ some (owner c) := fun held => inv.held _ held free
  refine ⟨inv.books.begins c .waiting free,inv.free,
    heldUpdate fun other holds => .inr (inv.held other holds),
    phasesUpdate ?_ fun other _ => inv.phases other⟩
  intro issued phase here
  cases Option.some.inj here
  exact ⟨apart,inv.books.unissued c⟩

theorem waitingKeeps (serves : Serves code object represents)
    (inv : Inv owner code object represents start s effects now)
    (here : s.calls thread = some (issued,.waiting)) (free : s.holder = none) :
    Inv owner code object represents start
      { s.put thread issued (.inside (code.start issued.call)) with holder := some thread }
      effects now := by
  have at' := inv.phases thread issued .waiting here
  refine ⟨inv.books.goesOn here _,fun open' => by contradiction,
    heldUpdate fun other holds => .inl (Option.some.inj holds).symm,phasesUpdate ?_ ?_⟩
  · intro issued' phase same
    cases Option.some.inj same
    exact ⟨rfl,at'.2,serves s.shared now issued.call (inv.free free)⟩
  · intro other different issued' phase there
    have outside : s.holder ≠ some other := by
      rw [free]
      exact Option.some_ne_none other |>.symm
    exact (inv.phases other issued' phase there).elsewhere outside
      (fun same => different (Option.some.inj same).symm) (List.Subset.refl _) id

theorem insideKeeps {stage : π} {shared' : σ} {after : π ⊕ ρ}
    (inv : Inv owner code object represents start s effects now)
    (here : s.calls thread = some (issued,.inside stage))
    (accessed : code.access s.shared stage = some (shared',after)) :
    ∃ more now', Inv owner code object represents start
      { s.put thread issued (match after with
        | .inl next => .inside next
        | .inr answer => .leaving answer) with shared := shared' } more now' := by
  obtain ⟨holds,untaken,finished,finishes,represented⟩ := inv.phases thread issued _ here
  have outside : ∀ other, other ≠ thread → s.holder ≠ some other := by
    intro other different held
    rw [holds] at held
    exact different (Option.some.inj held).symm
  have held : ∀ other, s.holder = some other → other = thread ∨ s.calls other ≠ none :=
    fun other holds => .inr (inv.held other holds)
  cases finishes with
  | last last =>
    cases Option.some.inj (accessed.symm.trans last)
    refine ⟨effects ++ [(issued,(object now issued.call).1)],(object now issued.call).2,
      (inv.books.takesEffect here untaken rfl).goesOn here _,fun open' => ?_,heldUpdate held,
      phasesUpdate ?_ ?_⟩
    · rw [show s.holder = none from open'] at holds
      contradiction
    · intro issued' phase same
      cases Option.some.inj same
      exact ⟨holds,by simp,represented⟩
    · intro other different issued' phase there
      refine (inv.phases other issued' phase there).elsewhere (outside other different)
        (outside other different) (List.subset_append_left _ _) fun fresh => ?_
      have apart := inv.books.apart here there different.symm
      simp only [List.map_append,List.map_cons,List.map_nil,List.mem_append,List.mem_singleton]
      exact fun mem => mem.elim fresh apart
  | more step rest =>
    cases Option.some.inj (accessed.symm.trans step)
    refine ⟨effects,now,inv.books.goesOn here _,fun open' => ?_,heldUpdate held,phasesUpdate ?_ ?_⟩
    · rw [show s.holder = none from open'] at holds
      contradiction
    · intro issued' phase same
      cases Option.some.inj same
      exact ⟨holds,untaken,finished,rest,represented⟩
    · intro other different issued' phase there
      exact (inv.phases other issued' phase there).elsewhere (outside other different)
        (outside other different) (List.Subset.refl _) id

theorem leavingKeeps {answer : ρ} (inv : Inv owner code object represents start s effects now)
    (here : s.calls thread = some (issued,.leaving answer)) :
    Inv owner code object represents start
      { s.put thread issued (.returning answer) with holder := none } effects now := by
  obtain ⟨holds,took,represented⟩ := inv.phases thread issued _ here
  refine ⟨inv.books.goesOn here _,fun _ => represented,fun _ held => by contradiction,phasesUpdate ?_ ?_⟩
  · intro issued' phase same
    cases Option.some.inj same
    exact ⟨fun held => by contradiction,took⟩
  · intro other different issued' phase there
    have outside : s.holder ≠ some other := by
      intro held
      rw [holds] at held
      exact different (Option.some.inj held).symm
    exact (inv.phases other issued' phase there).elsewhere outside (fun held => by contradiction)
      (List.Subset.refl _) id

theorem returningKeeps {answer : ρ} (inv : Inv owner code object represents start s effects now)
    (here : s.calls thread = some (issued,.returning answer)) :
    Inv owner code object represents start { s with
      calls := Function.update s.calls thread none
      events := s.events ++ [.returned issued answer] } effects now := by
  obtain ⟨outside,took⟩ := inv.phases thread issued _ here
  refine ⟨inv.books.returns here took,inv.free,?_,
    phasesUpdate (fun _ _ same => by contradiction) fun other _ => inv.phases other⟩
  intro other holds
  have different : other ≠ thread := fun same => outside (same ▸ holds)
  simp only [Function.update_of_ne different]
  exact inv.held other holds

theorem stepKeeps {action : Action θ κ} (serves : Serves code object represents)
    (inv : Inv owner code object represents start s effects now)
    (moved : step owner code s action = some t) :
    ∃ more now', Inv owner code object represents start t more now' := by
  cases action with
  | call c => exact ⟨effects,now,beginKeeps inv moved⟩
  | go thread =>
    simp only [step,go] at moved
    split at moved <;> try contradiction
    · rename_i issued here
      split at moved <;> try contradiction
      rename_i free
      cases Option.some.inj moved
      exact ⟨effects,now,waitingKeeps serves inv here free⟩
    · rename_i issued stage here
      split at moved <;> try contradiction
      · rename_i shared next accessed
        cases Option.some.inj moved
        exact insideKeeps inv here accessed
      · rename_i shared answer accessed
        cases Option.some.inj moved
        exact insideKeeps inv here accessed
    · rename_i issued answer here
      cases Option.some.inj moved
      exact ⟨effects,now,leavingKeeps inv here⟩
    · rename_i issued answer here
      cases Option.some.inj moved
      exact ⟨effects,now,returningKeeps inv here⟩

theorem runInv {acts : List (Action θ κ)} (serves : Serves code object represents)
    (represented : represents shared start)
    (run : exec (step owner code) (init shared) acts = some s) :
    ∃ effects now, Inv owner code object represents start s effects now :=
  preserved (I := fun s => ∃ effects now, Inv owner code object represents start s effects now)
    (fun _ _ _ inv moved => inv.elim fun _ inv => inv.elim fun _ inv => stepKeeps serves inv moved) run
    ⟨[],start,initInv owner code object represented⟩

def Goes (owner : κ → θ) (code : Code κ ρ π σ) (s t : State θ κ ρ π σ) : Prop :=
  ∃ threads : List θ, exec (step owner code) s (threads.map .go) = some t

theorem Goes.refl (s : State θ κ ρ π σ) : Goes owner code s s := ⟨[],rfl⟩

theorem Goes.trans {u : State θ κ ρ π σ} (first : Goes owner code s t) (then' : Goes owner code t u) :
    Goes owner code s u := by
  obtain ⟨xs,left⟩ := first
  obtain ⟨ys,right⟩ := then'
  exact ⟨xs ++ ys,by rw [List.map_append]; exact execAppend.mpr ⟨t,left,right⟩⟩

theorem goesOnce (moved : go code s thread = some t) : Goes owner code s t :=
  ⟨[thread],execCons.mpr ⟨t,moved,rfl⟩⟩

theorem Goes.inv (serves : Serves code object represents)
    (inv : Inv owner code object represents start s effects now) (goes : Goes owner code s t) :
    ∃ more now', Inv owner code object represents start t more now' := by
  obtain ⟨threads,run⟩ := goes
  exact preserved (I := fun s => ∃ effects now, Inv owner code object represents start s effects now)
    (fun _ _ _ inv moved => inv.elim fun _ inv => inv.elim fun _ inv => stepKeeps serves inv moved) run
    ⟨effects,now,inv⟩

theorem goesInside {stage : π} {after : π ⊕ ρ} (here : s.calls thread = some (issued,.inside stage))
    (accessed : code.access s.shared stage = some (shared,after)) :
    Goes owner code s { s.put thread issued (match after with
      | .inl next => .inside next
      | .inr answer => .leaving answer) with shared := shared } := by
  have moved : go code s thread = some { s.put thread issued (match after with
      | .inl next => .inside next
      | .inr answer => .leaving answer) with shared := shared } := by
    cases after <;> simp only [go,here,accessed]
  exact goesOnce moved

theorem finishesGoes {stage : π} {answer : ρ} {shared' : σ}
    (finishes : Finishes code shared stage answer shared')
    (here : s.calls thread = some (issued,.inside stage)) (same : s.shared = shared) :
    ∃ t, Goes owner code s t ∧ t.holder = s.holder ∧
      t.calls = Function.update s.calls thread (some (issued,.leaving answer)) := by
  induction finishes generalizing s with
  | last accessed =>
    subst same
    exact ⟨_,goesInside here accessed,rfl,rfl⟩
  | @more _ shared _ _ next _ accessed rest ih =>
    subst same
    let inside : State θ κ ρ π σ := { s.put thread issued (.inside next) with shared := shared }
    have first : Goes owner code s inside := goesInside here accessed
    have here' : inside.calls thread = some (issued,.inside next) := Function.update_self _ _ _
    obtain ⟨t,later,holder,calls⟩ := ih here' rfl
    refine ⟨t,first.trans later,holder,?_⟩
    rw [calls]
    exact Function.update_idem _ _ _

theorem leavingGoes {answer : ρ} (here : s.calls thread = some (issued,.leaving answer)) :
    ∃ t, Goes owner code s t ∧ t.holder = none ∧ t.calls = Function.update s.calls thread none := by
  have unlocked : go code s thread =
      some { s.put thread issued (.returning answer) with holder := none } := by
    simp only [go,here]
  have returned : go code { s.put thread issued (.returning answer) with holder := none } thread =
      some { s with
        holder := none
        calls := Function.update s.calls thread none
        events := s.events ++ [.returned issued answer] } := by
    simp only [go,State.put,Function.update_self,Function.update_idem]
  exact ⟨_,(goesOnce unlocked).trans (goesOnce returned),rfl,rfl⟩

theorem holderGoes (inv : Inv owner code object represents start s effects now)
    (holds : s.holder = some thread) :
    ∃ t, Goes owner code s t ∧ t.holder = none ∧ t.calls = Function.update s.calls thread none := by
  obtain ⟨⟨issued,phase⟩,here⟩ := Option.ne_none_iff_exists'.mp (inv.held thread holds)
  have at' := inv.phases thread issued phase here
  cases phase with
  | waiting => exact absurd holds at'.1
  | returning answer => exact absurd holds at'.1
  | leaving answer => exact leavingGoes here
  | inside stage =>
    obtain ⟨_,_,finished,finishes,_⟩ := at'
    have inside : ∃ t, Goes owner code s t ∧ t.holder = s.holder ∧ t.calls = Function.update s.calls
        thread (some (issued,.leaving (object now issued.call).1)) := finishesGoes finishes here rfl
    obtain ⟨t,first,_,calls⟩ := inside
    have released : ∃ u, Goes owner code t u ∧ u.holder = none ∧
        u.calls = Function.update t.calls thread none :=
      leavingGoes (by rw [calls,Function.update_self])
    obtain ⟨u,later,free,rest⟩ := released
    refine ⟨u,first.trans later,free,?_⟩
    rw [rest,calls,Function.update_idem]

theorem freeGoes (serves : Serves code object represents)
    (inv : Inv owner code object represents start s effects now) (free : s.holder = none)
    (thread : θ) :
    ∃ t, Goes owner code s t ∧ t.holder = none ∧ t.calls = Function.update s.calls thread none := by
  cases call : s.calls thread with
  | none =>
    refine ⟨s,Goes.refl s,free,?_⟩
    rw [← call,Function.update_eq_self]
  | some call' =>
    obtain ⟨issued,phase⟩ := call'
    have at' := inv.phases thread issued phase call
    cases phase with
    | inside stage =>
      rw [at'.1] at free
      contradiction
    | leaving answer =>
      rw [at'.1] at free
      contradiction
    | returning answer =>
      have returned : go code s thread = some { s with
          calls := Function.update s.calls thread none
          events := s.events ++ [.returned issued answer] } := by
        simp only [go,call]
      exact ⟨_,goesOnce returned,free,rfl⟩
    | waiting =>
      have taken : go code s thread = some
          { s.put thread issued (.inside (code.start issued.call)) with holder := some thread } := by
        simp only [go,call,free]
      obtain ⟨t,later,done,calls⟩ := holderGoes (waitingKeeps serves inv call free) rfl
      refine ⟨t,(goesOnce taken).trans later,done,?_⟩
      rw [calls]
      exact Function.update_idem _ _ _

theorem callsFinish (serves : Serves code object represents)
    (inv : Inv owner code object represents start s effects now) (free : s.holder = none)
    (threads : List θ) (others : ∀ thread, thread ∉ threads → s.calls thread = none) :
    ∃ t, Goes owner code s t ∧ ∀ thread, t.calls thread = none := by
  induction threads generalizing s effects now with
  | nil => exact ⟨s,Goes.refl s,fun thread => others thread List.not_mem_nil⟩
  | cons thread rest ih =>
    obtain ⟨t,first,free,calls⟩ := freeGoes serves inv free thread
    obtain ⟨more,now',kept⟩ := first.inv serves inv
    have left : ∀ other, other ∉ rest → t.calls other = none := by
      intro other outside
      rw [calls]
      by_cases same : other = thread
      · rw [same,Function.update_self]
      · rw [Function.update_of_ne same]
        exact others other fun mem => (List.mem_cons.mp mem).elim same outside
    obtain ⟨u,later,done⟩ := ih kept free left
    exact ⟨u,first.trans later,done⟩

theorem completes (serves : Serves code object represents)
    (inv : Inv owner code object represents start s effects now) :
    ∃ t, Goes owner code s t ∧ ∀ thread, t.calls thread = none := by
  have opened : ∃ t, Goes owner code s t ∧ t.holder = none := by
    cases holder : s.holder with
    | none => exact ⟨s,Goes.refl s,holder⟩
    | some thread =>
      obtain ⟨t,goes,free,_⟩ := holderGoes inv holder
      exact ⟨t,goes,free⟩
  obtain ⟨t,first,free⟩ := opened
  obtain ⟨more,now',kept⟩ := first.inv serves inv
  have threads : ∀ thread, thread ∉ (begun t.events).map (fun issued => owner issued.call) →
      t.calls thread = none := by
    intro thread outside
    by_contra busy
    obtain ⟨⟨issued,phase⟩,here⟩ := Option.ne_none_iff_exists'.mp busy
    obtain ⟨own,began,_⟩ := kept.books.flying thread issued phase here
    exact outside (List.mem_map.mpr ⟨issued,began,own⟩)
  obtain ⟨u,later,done⟩ := callsFinish serves kept free _ threads
  exact ⟨u,first.trans later,done⟩

end
end LockedObject
