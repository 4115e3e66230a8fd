import FastReplay.GuardedRun

/-! What a process owes before it is done, and what threads that all keep getting turns
come to. -/
namespace Progress
open GuardedRun
variable {σ α : Type} {step : σ → α → Option σ}

/- A process that pays one for each of its own steps, and owes no more after those of
the others, is done within as many steps of its own as it owes. -/
theorem doneWithin (pending done : σ → Prop) (owed : σ → Nat) (own : α → Bool)
    (pays : ∀ s a t, pending s → step s a = some t →
      done t ∨ pending t ∧ owed t + (if own a then 1 else 0) ≤ owed s)
    (owes : ∀ s, pending s → 0 < owed s) (stays : ∀ s a t, done s → step s a = some t → done t)
    {s acts t} (run : exec step s acts = some t) (busy : pending s)
    (enough : owed s ≤ acts.countP own) : done t := by
  induction acts generalizing s with
  | nil =>
    have owing := owes s busy
    simp only [List.countP_nil] at enough
    omega
  | cons a rest ih =>
    obtain ⟨next,moved,later⟩ := execCons.mp run
    cases pays s a next busy moved with
    | inl finished => exact preserved stays later finished
    | inr still =>
      have paid := still.2
      rw [List.countP_cons] at enough
      exact ih later still.1 (by omega)

section
variable {θ : Type} {turn : σ → θ → σ} {start : σ} {schedule : Nat → θ}

def trace (turn : σ → θ → σ) (start : σ) (schedule : Nat → θ) : Nat → σ
  | 0 => start
  | k+1 => turn (trace turn start schedule k) (schedule k)

def Fair (schedule : Nat → θ) : Prop := ∀ thread k, ∃ m, k ≤ m ∧ schedule m = thread

theorem traceKeeps {I : σ → Prop} (keep : ∀ s thread, I s → I (turn s thread)) (start' : I start)
    (schedule : Nat → θ) (k : Nat) : I (trace turn start schedule k) := by
  induction k with
  | zero => exact start'
  | succ k ih => exact keep _ _ ih

structure Helps (turn : σ → θ → σ) (I goal : σ → Prop) (rank : σ → Nat) (helpful : σ → θ) : Prop where
  keep : ∀ s thread, I s → I (turn s thread)
  help : ∀ s, I s → ¬ goal s → rank (turn s (helpful s)) < rank s
  harm : ∀ s thread, I s → ¬ goal s → rank (turn s thread) < rank s ∨
    rank (turn s thread) = rank s ∧ helpful (turn s thread) = helpful s

variable {I goal : σ → Prop} {rank : σ → Nat} {helpful : σ → θ}

theorem Helps.waits (helps : Helps turn I goal rank helpful) (start' : I start) (k d : Nat)
    (never : ∀ m, k ≤ m → ¬ goal (trace turn start schedule m)) :
    (∃ m, k ≤ m ∧ rank (trace turn start schedule m) < rank (trace turn start schedule k)) ∨
      rank (trace turn start schedule (k+d)) = rank (trace turn start schedule k) ∧
      helpful (trace turn start schedule (k+d)) = helpful (trace turn start schedule k) := by
  induction d with
  | zero => exact .inr ⟨rfl,rfl⟩
  | succ d ih =>
    cases ih with
    | inl gained => exact .inl gained
    | inr same =>
      have inv := traceKeeps helps.keep start' schedule (k+d)
      cases helps.harm _ (schedule (k+d)) inv (never (k+d) (Nat.le_add_right k d)) with
      | inl less => exact .inl ⟨k+d+1,by omega,by rw [← same.1]; exact less⟩
      | inr still => exact .inr ⟨still.1.trans same.1,still.2.trans same.2⟩

theorem Helps.reaches (helps : Helps turn I goal rank helpful) (start' : I start)
    (fair : Fair schedule) (k : Nat) : ∃ m, k ≤ m ∧ goal (trace turn start schedule m) := by
  induction measure : rank (trace turn start schedule k) using Nat.strongRecOn generalizing k with
  | ind r ih =>
    refine Classical.byContradiction fun never => ?_
    have unmet : ∀ m, k ≤ m → ¬ goal (trace turn start schedule m) :=
      fun m later met => never ⟨m,later,met⟩
    have gained : ∃ m, k ≤ m ∧ rank (trace turn start schedule m) < r := by
      obtain ⟨m,later,turn'⟩ := fair (helpful (trace turn start schedule k)) k
      obtain ⟨d,rfl⟩ := Nat.exists_eq_add_of_le later
      cases helps.waits start' k d unmet with
      | inl gained =>
        rw [measure] at gained
        exact gained
      | inr same =>
        have inv := traceKeeps helps.keep start' schedule (k+d)
        have less := helps.help _ inv (unmet (k+d) later)
        rw [same.1,same.2,measure,← turn'] at less
        exact ⟨k+d+1,by omega,less⟩
    obtain ⟨m,later,less⟩ := gained
    obtain ⟨l,after,met⟩ := ih _ less m rfl
    exact never ⟨l,Nat.le_trans later after,met⟩

end
end Progress
