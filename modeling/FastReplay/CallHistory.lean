import Mathlib.Data.List.Basic
import Mathlib.Data.List.Nodup

/-! Histories of concurrent calls on an object, and the sequential runs they are
compared with. A call is named by its identity; every call returns at most once. -/
namespace CallHistory
variable {κ ρ σ : Type}

structure Issued (κ : Type) where
  number : Nat
  call : κ
  deriving DecidableEq, Repr

inductive Event (κ ρ : Type) where
  | began (call : κ)
  | returned (call : κ) (answer : ρ)
  deriving DecidableEq, Repr

def Event.call? : Event κ ρ → Option κ
  | .began call => some call
  | .returned _ _ => none

def Event.answer? : Event κ ρ → Option (κ × ρ)
  | .began _ => none
  | .returned call answer => some (call,answer)

def begun (events : List (Event κ ρ)) : List κ := events.filterMap Event.call?

def answered (events : List (Event κ ρ)) : List (κ × ρ) := events.filterMap Event.answer?

@[simp] theorem begunAppend (xs ys : List (Event κ ρ)) : begun (xs ++ ys) = begun xs ++ begun ys := by
  simp [begun]

@[simp] theorem answeredAppend (xs ys : List (Event κ ρ)) :
    answered (xs ++ ys) = answered xs ++ answered ys := by
  simp [answered]

@[simp] theorem begunNil : begun ([] : List (Event κ ρ)) = [] := rfl
@[simp] theorem answeredNil : answered ([] : List (Event κ ρ)) = [] := rfl

variable (c : κ) (answer : ρ) (rest : List (Event κ ρ))

@[simp] theorem begunBegan : begun (.began c::rest) = c::begun rest := rfl
@[simp] theorem begunReturned : begun (.returned c answer::rest) = begun rest := rfl
@[simp] theorem answeredBegan : answered (.began c::rest) = answered rest := rfl
@[simp] theorem answeredReturned :
    answered (.returned c answer::rest) = (c,answer)::answered rest := rfl

def Precedes (events : List (Event κ ρ)) (a b : κ) : Prop :=
  ∃ xs ys zs answer, events = xs ++ [.returned a answer] ++ ys ++ [.began b] ++ zs

structure Proper (events : List (Event κ ρ)) : Prop where
  distinct : (begun events).Nodup
  inside : ∀ xs c answer ys, events = xs ++ [.returned c answer] ++ ys → c ∈ begun xs

theorem properNil : Proper ([] : List (Event κ ρ)) := by
  refine ⟨List.nodup_nil,?_⟩
  intro xs c answer ys split
  simp at split

theorem splitSnoc {α : Type} {l xs ys : List α} {x a : α} (split : l ++ [x] = xs ++ [a] ++ ys) :
    (l = xs ∧ x = a) ∨ ∃ rest, l = xs ++ [a] ++ rest := by
  rcases List.eq_nil_or_concat ys with rfl | ⟨rest,last,rfl⟩
  · simp only [List.append_nil] at split
    exact .inl ⟨List.append_inj_left' split rfl,by simpa using List.append_inj_right' split rfl⟩
  · simp only [List.concat_eq_append,← List.append_assoc] at split
    exact .inr ⟨rest,List.append_inj_left' split rfl⟩

theorem Proper.begins {events : List (Event κ ρ)} {c : κ} (proper : Proper events)
    (fresh : c ∉ begun events) : Proper (events ++ [.began c]) := by
  refine ⟨?_,?_⟩
  · simp only [begunAppend,begunBegan,begunNil]
    exact List.nodup_append.mpr ⟨proper.distinct,List.nodup_singleton c,by
      rintro a mem b single rfl
      exact fresh (by rwa [← List.mem_singleton.mp single])⟩
  · intro xs d answer ys split
    rcases splitSnoc split with ⟨_,same⟩ | ⟨rest,old⟩
    · contradiction
    · exact proper.inside xs d answer rest old

theorem Proper.returns {events : List (Event κ ρ)} {c : κ} {answer : ρ} (proper : Proper events)
    (running : c ∈ begun events) : Proper (events ++ [.returned c answer]) := by
  refine ⟨by simpa using proper.distinct,?_⟩
  intro xs d answer' ys split
  rcases splitSnoc split with ⟨rfl,same⟩ | ⟨rest,old⟩
  · cases same
    exact running
  · exact proper.inside xs d answer' rest old

theorem Proper.prefixed {xs ys : List (Event κ ρ)} (proper : Proper (xs ++ ys)) : Proper xs := by
  refine ⟨?_,?_⟩
  · have distinct := proper.distinct
    rw [begunAppend] at distinct
    exact (List.nodup_append.mp distinct).1
  · intro front c answer rest split
    exact proper.inside front c answer (rest ++ ys) (by rw [split]; simp)

theorem Proper.hadBegun {events : List (Event κ ρ)} {c : κ} {answer : ρ} (proper : Proper events)
    (mem : (c,answer) ∈ answered events) : c ∈ begun events := by
  obtain ⟨event,here,same⟩ := List.mem_filterMap.mp mem
  obtain ⟨xs,ys,split⟩ := List.append_of_mem here
  cases event with
  | began d => simp [Event.answer?] at same
  | returned d answer' =>
    simp only [Event.answer?,Option.some.injEq,Prod.mk.injEq] at same
    obtain ⟨rfl,rfl⟩ := same
    have before := proper.inside xs d answer' ys (by rw [split]; simp)
    rw [split,begunAppend]
    exact List.mem_append_left _ before

theorem Proper.returnsOrdered {events : List (Event κ ρ)} {a b : κ} {answer : ρ}
    (proper : Proper events) (precedes : Precedes events a b) (returned : (b,answer) ∈ answered events) :
    [a,b].Sublist ((answered events).map Prod.fst) := by
  obtain ⟨xs,ys,zs,answerA,rfl⟩ := precedes
  have late : (b,answer) ∈ answered zs := by
    have parts : (b,answer) ∈ answered (xs ++ [.returned a answerA] ++ ys) ∨
        (b,answer) ∈ answered zs := by simpa [or_assoc] using returned
    rcases parts with early | late
    · have front : Proper (xs ++ [.returned a answerA] ++ ys) := proper.prefixed.prefixed
      have distinct := proper.prefixed.distinct
      rw [begunAppend] at distinct
      exact absurd rfl ((List.nodup_append.mp distinct).2.2 b (front.hadBegun early) b (by simp))
    · exact late
  simp only [answeredAppend,answeredReturned,answeredNil,List.map_append,List.map_cons,List.map_nil,
    List.append_assoc]
  refine (List.nil_sublist _).append ((List.Sublist.refl [a]).append ?_)
  refine (List.nil_sublist _).append ((List.nil_sublist _).append ?_)
  exact List.singleton_sublist.mpr (List.mem_map.mpr ⟨_,late,rfl⟩)

def replay (object : σ → κ → ρ × σ) : σ → List κ → List ρ × σ
  | s,[] => ([],s)
  | s,c::rest => ((object s c).1::(replay object (object s c).2 rest).1,
      (replay object (object s c).2 rest).2)

theorem replaySnoc (object : σ → κ → ρ × σ) (s : σ) (calls : List κ) (c : κ) :
    replay object s (calls ++ [c]) =
      ((replay object s calls).1 ++ [(object (replay object s calls).2 c).1],
        (object (replay object s calls).2 c).2) := by
  induction calls generalizing s with
  | nil => rfl
  | cons d rest ih => simp [replay,ih]

/- A total order of the calls of a history, in which the object gives every call
the answer it got in the history. -/
structure Linearizes (object : σ → κ → ρ × σ) (start : σ) (events : List (Event κ ρ))
    (order : List (κ × ρ)) (final : σ) : Prop where
  distinct : (order.map Prod.fst).Nodup
  calls : (order.map Prod.fst).Perm (begun events)
  answers : order.Perm (answered events)
  precedence : ∀ a b, Precedes events a b → [a,b].Sublist (order.map Prod.fst)
  legal : replay object start (order.map Prod.fst) = (order.map Prod.snd,final)

theorem returnsLinearize {object : σ → κ → ρ × σ} {start final : σ} {events : List (Event κ ρ)}
    (proper : Proper events) (finished : ((answered events).map Prod.fst).Perm (begun events))
    (legal : replay object start ((answered events).map Prod.fst)
      = ((answered events).map Prod.snd,final)) :
    Linearizes object start events (answered events) final where
  distinct := finished.nodup_iff.mpr proper.distinct
  calls := finished
  answers := List.Perm.refl _
  precedence := by
    intro a b precedes
    have began : b ∈ begun events := by
      obtain ⟨xs,ys,zs,answer,rfl⟩ := precedes
      simp
    obtain ⟨⟨_,answer⟩,returned,rfl⟩ := List.mem_map.mp (finished.mem_iff.mpr began)
    exact proper.returnsOrdered precedes returned
  legal := legal

end CallHistory
