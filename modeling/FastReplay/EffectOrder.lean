import Mathlib.Logic.Function.Basic
import FastReplay.CallHistory

/-! Calls that take effect at one moment between their beginning and their return.
A call may be over for the object and not yet for its caller, so the order of the
effects is not the order of the returns. -/
namespace EffectOrder
open CallHistory
variable {κ ρ σ : Type}

theorem precedesReturned {events : List (Event κ ρ)} {a b c : κ} {answer : ρ}
    (precedes : Precedes (events ++ [.returned c answer]) a b) : Precedes events a b := by
  obtain ⟨xs,ys,zs,answerA,split⟩ := precedes
  rcases splitSnoc split with ⟨_,same⟩ | ⟨rest,old⟩
  · contradiction
  · exact ⟨xs,ys,rest,answerA,old⟩

theorem precedesBegan {events : List (Event κ ρ)} {a b c : κ}
    (precedes : Precedes (events ++ [.began c]) a b) :
    Precedes events a b ∨ b = c ∧ a ∈ (answered events).map Prod.fst := by
  obtain ⟨xs,ys,zs,answer,split⟩ := precedes
  rcases splitSnoc split with ⟨rfl,same⟩ | ⟨rest,old⟩
  · cases same
    exact .inr ⟨rfl,List.mem_map.mpr ⟨(a,answer),by simp,rfl⟩⟩
  · exact .inl ⟨xs,ys,rest,answer,old⟩

theorem precedesAnswered {events : List (Event κ ρ)} {a b : κ} (precedes : Precedes events a b) :
    a ∈ (answered events).map Prod.fst := by
  obtain ⟨xs,ys,zs,answer,rfl⟩ := precedes
  exact List.mem_map.mpr ⟨(a,answer),by simp,rfl⟩

/- The calls that have taken effect on an object, each with the answer it then got. -/
structure Takes (object : σ → κ → ρ × σ) (start : σ) (events : List (Event κ ρ))
    (effects : List (κ × ρ)) (now : σ) : Prop where
  proper : Proper events
  once : (effects.map Prod.fst).Nodup
  single : ((answered events).map Prod.fst).Nodup
  inside : ∀ c ∈ effects.map Prod.fst, c ∈ begun events
  returned : ∀ call ∈ answered events, call ∈ effects
  ordered : ∀ a b, Precedes events a b → b ∈ effects.map Prod.fst →
    [a,b].Sublist (effects.map Prod.fst)
  legal : replay object start (effects.map Prod.fst) = (effects.map Prod.snd,now)

variable {object : σ → κ → ρ × σ} {start now : σ} {events : List (Event κ ρ)}
  {effects : List (κ × ρ)} {c : κ} {answer : ρ}

theorem takesNone (object : σ → κ → ρ × σ) (start : σ) : Takes object start [] [] start where
  proper := properNil
  once := List.nodup_nil
  single := List.nodup_nil
  inside := by simp
  returned := by simp
  ordered := by simp
  legal := rfl

theorem Takes.answeredTook (h : Takes object start events effects now)
    (returned : c ∈ (answered events).map Prod.fst) : c ∈ effects.map Prod.fst := by
  obtain ⟨call,mem,rfl⟩ := List.mem_map.mp returned
  exact List.mem_map.mpr ⟨call,h.returned call mem,rfl⟩

theorem Takes.begins (h : Takes object start events effects now) (fresh : c ∉ begun events) :
    Takes object start (events ++ [.began c]) effects now where
  proper := h.proper.begins fresh
  once := h.once
  single := by simpa using h.single
  inside d mem := by simp [h.inside d mem]
  returned call mem := h.returned call (by simpa using mem)
  ordered a b precedes took := by
    rcases precedesBegan precedes with old | ⟨rfl,_⟩
    · exact h.ordered a b old took
    · exact absurd (h.inside b took) fresh
  legal := h.legal

theorem Takes.takes {after : σ} (h : Takes object start events effects now) (began : c ∈ begun events)
    (fresh : c ∉ effects.map Prod.fst) (served : object now c = (answer,after)) :
    Takes object start events (effects ++ [(c,answer)]) after where
  proper := h.proper
  once := by
    rw [List.map_append,List.map_cons,List.map_nil,← List.concat_eq_append]
    exact h.once.concat fresh
  single := h.single
  inside d mem := by
    rw [List.map_append,List.mem_append] at mem
    rcases mem with old | new
    · exact h.inside d old
    · rw [List.mem_singleton.mp new]
      exact began
  returned call mem := List.mem_append_left _ (h.returned call mem)
  ordered a b precedes took := by
    rw [List.map_append] at took ⊢
    rcases List.mem_append.mp took with old | new
    · exact (h.ordered a b precedes old).trans (List.sublist_append_left _ _)
    · rw [List.mem_singleton.mp new]
      have earlier := h.answeredTook (precedesAnswered precedes)
      exact (List.singleton_sublist.mpr earlier).append (List.Sublist.refl _)
  legal := by simp only [List.map_append,List.map_cons,List.map_nil,replaySnoc,h.legal,served]

theorem Takes.returns (h : Takes object start events effects now) (took : (c,answer) ∈ effects)
    (running : c ∉ (answered events).map Prod.fst) :
    Takes object start (events ++ [.returned c answer]) effects now where
  proper := h.proper.returns (h.inside c (List.mem_map.mpr ⟨_,took,rfl⟩))
  once := h.once
  single := by
    simp only [answeredAppend,answeredReturned,answeredNil,List.map_append,List.map_cons,List.map_nil]
    rw [← List.concat_eq_append]
    exact h.single.concat running
  inside d mem := by simpa using h.inside d mem
  returned call mem := by
    simp only [answeredAppend,answeredReturned,answeredNil,List.mem_append,List.mem_singleton] at mem
    rcases mem with old | rfl
    · exact h.returned call old
    · exact took
  ordered a b precedes := h.ordered a b (precedesReturned precedes)
  legal := h.legal

theorem Takes.answerOf (h : Takes object start events effects now) {r : ρ} (first : (c,answer) ∈ effects)
    (second : (c,r) ∈ effects) : answer = r := by
  have same := List.inj_on_of_nodup_map h.once first second rfl
  exact (Prod.mk.inj same).2

theorem Takes.linearizes (h : Takes object start events effects now)
    (finished : ∀ d ∈ begun events, d ∈ (answered events).map Prod.fst) :
    Linearizes object start events effects now where
  distinct := h.once
  calls := (List.perm_ext_iff_of_nodup h.once h.proper.distinct).mpr fun d =>
    ⟨h.inside d,fun began => h.answeredTook (finished d began)⟩
  answers := by
    refine (List.perm_ext_iff_of_nodup h.once.of_map h.single.of_map).mpr fun call =>
      ⟨?_,h.returned call⟩
    intro took
    obtain ⟨⟨d,r⟩,mem,same⟩ :=
      List.mem_map.mp (finished call.1 (h.inside _ (List.mem_map.mpr ⟨call,took,rfl⟩)))
    obtain ⟨e,r'⟩ := call
    cases same
    rwa [h.answerOf took (h.returned _ mem)]
  precedence a b precedes := by
    refine h.ordered a b precedes ?_
    obtain ⟨xs,ys,zs,answer,rfl⟩ := precedes
    exact h.answeredTook (finished b (by simp))
  legal := h.legal

structure Books {θ π : Type} (owner : κ → θ) (object : σ → Issued κ → ρ × σ) (start : σ)
    (calls : θ → Option (Issued κ × π)) (events : List (Event (Issued κ) ρ))
    (effects : List (Issued κ × ρ)) (now : σ) : Prop where
  takes : Takes object start events effects now
  numbers : (begun events).map Issued.number = List.range (begun events).length
  flying : ∀ thread issued stage, calls thread = some (issued,stage) → owner issued.call = thread ∧
    issued ∈ begun events ∧ issued ∉ (answered events).map Prod.fst
  settled : ∀ issued ∈ begun events, issued ∈ (answered events).map Prod.fst ∨
    ∃ thread stage, calls thread = some (issued,stage)

section
variable {θ π : Type} {owner : κ → θ} {object : σ → Issued κ → ρ × σ} {start now : σ}
  {calls : θ → Option (Issued κ × π)} {events : List (Event (Issued κ) ρ)}
  {effects : List (Issued κ × ρ)} {thread : θ} {issued : Issued κ} {stage : π} {answer : ρ}

theorem booksNone (owner : κ → θ) (object : σ → Issued κ → ρ × σ) (start : σ) :
    Books owner object start (fun _ => (none : Option (Issued κ × π))) [] [] start where
  takes := takesNone object start
  numbers := rfl
  flying := by simp
  settled := by simp

theorem Books.apart (h : Books owner object start calls events effects now) {other : θ}
    {issued' : Issued κ} {stage' : π} (here : calls thread = some (issued,stage))
    (there : calls other = some (issued',stage')) (different : thread ≠ other) : issued' ≠ issued := by
  rintro rfl
  exact different ((h.flying _ _ _ here).1.symm.trans (h.flying _ _ _ there).1)

theorem Books.unissued (h : Books owner object start calls events effects now) (call : κ) :
    (⟨(begun events).length,call⟩ : Issued κ) ∉ effects.map Prod.fst := by
  intro mem
  have number : (begun events).length ∈ (begun events).map Issued.number :=
    List.mem_map.mpr ⟨_,h.takes.inside _ mem,rfl⟩
  rw [h.numbers] at number
  exact absurd (List.mem_range.mp number) (Nat.lt_irrefl _)

theorem Books.takesEffect {after : σ} (h : Books owner object start calls events effects now)
    (here : calls thread = some (issued,stage)) (fresh : issued ∉ effects.map Prod.fst)
    (served : object now issued = (answer,after)) :
    Books owner object start calls events (effects ++ [(issued,answer)]) after :=
  { h with takes := h.takes.takes (h.flying _ _ _ here).2.1 fresh served }

theorem Books.linearizes (h : Books owner object start calls events effects now)
    (idle : ∀ thread, calls thread = none) : Linearizes object start events effects now := by
  refine h.takes.linearizes fun issued began => ?_
  rcases h.settled issued began with done | ⟨thread,stage,here⟩
  · exact done
  · rw [idle thread] at here
    contradiction

variable [DecidableEq θ]

theorem Books.begins (h : Books owner object start calls events effects now) (call : κ) (stage : π)
    (free : calls (owner call) = none) :
    Books owner object start
      (Function.update calls (owner call) (some (⟨(begun events).length,call⟩,stage)))
      (events ++ [.began ⟨(begun events).length,call⟩]) effects now := by
  have fresh : (⟨(begun events).length,call⟩ : Issued κ) ∉ begun events := by
    intro mem
    have number : (begun events).length ∈ (begun events).map Issued.number :=
      List.mem_map.mpr ⟨_,mem,rfl⟩
    rw [h.numbers] at number
    exact absurd (List.mem_range.mp number) (Nat.lt_irrefl _)
  have unanswered : (⟨(begun events).length,call⟩ : Issued κ) ∉ (answered events).map Prod.fst :=
    fun mem => fresh (h.takes.inside _ (h.takes.answeredTook mem))
  refine ⟨h.takes.begins fresh,by simp [h.numbers,List.range_succ],?_,?_⟩
  · intro thread issued stage' here
    by_cases same : thread = owner call
    · subst same
      rw [Function.update_self] at here
      obtain ⟨rfl,_⟩ := Prod.mk.inj (Option.some.inj here)
      exact ⟨rfl,by simp,by simpa using unanswered⟩
    · rw [Function.update_of_ne same] at here
      obtain ⟨own,began,running⟩ := h.flying _ _ _ here
      exact ⟨own,by simp [began],by simpa using running⟩
  · intro issued began
    rw [begunAppend,List.mem_append] at began
    rcases began with old | new
    · rcases h.settled issued old with done | ⟨thread,stage',here⟩
      · exact .inl (by simpa using done)
      · refine .inr ⟨thread,stage',?_⟩
        rw [Function.update_of_ne]
        · exact here
        · rintro rfl
          rw [free] at here
          contradiction
    · rw [begunBegan,begunNil,List.mem_singleton] at new
      subst new
      exact .inr ⟨owner call,stage,Function.update_self _ _ _⟩

theorem Books.goesOn (h : Books owner object start calls events effects now)
    (here : calls thread = some (issued,stage)) (stage' : π) :
    Books owner object start (Function.update calls thread (some (issued,stage'))) events effects
      now := by
  refine ⟨h.takes,h.numbers,?_,?_⟩
  · intro other issued' stage'' at'
    by_cases same : other = thread
    · subst same
      rw [Function.update_self] at at'
      obtain ⟨rfl,_⟩ := Prod.mk.inj (Option.some.inj at')
      exact h.flying _ _ _ here
    · rw [Function.update_of_ne same] at at'
      exact h.flying _ _ _ at'
  · intro issued' began
    rcases h.settled issued' began with done | ⟨other,stage'',at'⟩
    · exact .inl done
    · by_cases same : other = thread
      · subst same
        cases (Prod.mk.inj (Option.some.inj (here.symm.trans at'))).1
        exact .inr ⟨other,stage',Function.update_self _ _ _⟩
      · exact .inr ⟨other,stage'',by rw [Function.update_of_ne same]; exact at'⟩

theorem Books.returns (h : Books owner object start calls events effects now)
    (here : calls thread = some (issued,stage)) (took : (issued,answer) ∈ effects) :
    Books owner object start (Function.update calls thread none)
      (events ++ [.returned issued answer]) effects now := by
  obtain ⟨_,_,running⟩ := h.flying _ _ _ here
  refine ⟨h.takes.returns took running,by simpa using h.numbers,?_,?_⟩
  · intro other issued' stage' at'
    have different : other ≠ thread := by
      rintro rfl
      rw [Function.update_self] at at'
      contradiction
    rw [Function.update_of_ne different] at at'
    obtain ⟨own,began,running'⟩ := h.flying _ _ _ at'
    refine ⟨own,by simpa using began,?_⟩
    have apart := h.apart here at' different.symm
    simp only [answeredAppend,answeredReturned,answeredNil,List.map_append,List.map_cons,List.map_nil,
      List.mem_append,List.mem_singleton]
    exact fun mem => mem.elim running' apart
  · intro issued' began
    rw [begunAppend,begunReturned,begunNil,List.append_nil] at began
    rcases h.settled issued' began with done | ⟨other,stage',at'⟩
    · exact .inl (by simp only [answeredAppend,List.map_append]; exact List.mem_append_left _ done)
    · by_cases same : other = thread
      · subst same
        cases (Prod.mk.inj (Option.some.inj (here.symm.trans at'))).1
        exact .inl (by simp)
      · exact .inr ⟨other,stage',by rw [Function.update_of_ne same]; exact at'⟩

end
end EffectOrder
