/-! Finite runs of a machine given by a partial step function. A step that is
not enabled in a state stops the run; nothing is assumed about scheduling. -/
namespace GuardedRun
variable {σ α : Type}

def exec (step : σ → α → Option σ) : σ → List α → Option σ
  | s,[] => some s
  | s,a::rest => do
    let next ← step s a
    exec step next rest

variable {step : σ → α → Option σ}

theorem execCons {s a rest t} :
    exec step s (a::rest) = some t ↔ ∃ next, step s a = some next ∧ exec step next rest = some t := by
  simp only [exec,bind,Option.bind_eq_some_iff]

theorem execAppend {s xs ys t} :
    exec step s (xs++ys) = some t ↔ ∃ mid, exec step s xs = some mid ∧ exec step mid ys = some t := by
  induction xs generalizing s with
  | nil => simp [exec]
  | cons x xs ih =>
    simp only [List.cons_append,execCons,ih]
    constructor
    · rintro ⟨next,first,mid,left,right⟩
      exact ⟨mid,⟨next,first,left⟩,right⟩
    · rintro ⟨mid,⟨next,first,left⟩,right⟩
      exact ⟨next,first,mid,left,right⟩

theorem execSnoc {s xs a t} :
    exec step s (xs++[a]) = some t ↔ ∃ mid, exec step s xs = some mid ∧ step mid a = some t := by
  simp [execAppend,exec]

theorem preserved {I : σ → Prop} (keep : ∀ s a t, I s → step s a = some t → I t)
    {s acts t} (run : exec step s acts = some t) (start : I s) : I t := by
  induction acts generalizing s with
  | nil => cases run; exact start
  | cons a rest ih =>
    obtain ⟨next,first,later⟩ := execCons.mp run
    exact ih later (keep s a next start first)

def Meets (step : σ → α → Option σ) (allowed : σ → α → Prop) : σ → List α → Prop
  | _,[] => True
  | s,a::rest => allowed s a ∧ ∀ next, step s a = some next → Meets step allowed next rest

instance meetsDecidable {allowed : σ → α → Prop} [∀ s a, Decidable (allowed s a)] (s : σ)
    (acts : List α) : Decidable (Meets step allowed s acts) := match acts with
  | [] => isTrue trivial
  | a::rest => match moved : step s a with
    | none => decidable_of_iff (allowed s a) (by simp [Meets,moved])
    | some next =>
      have : Decidable (Meets step allowed next rest) := meetsDecidable next rest
      decidable_of_iff (allowed s a ∧ Meets step allowed next rest) (by simp [Meets,moved])

theorem meetsAlways {allowed : σ → α → Prop} {acts : List α}
    (always : ∀ a ∈ acts, ∀ s, allowed s a) (s : σ) : Meets step allowed s acts := by
  induction acts generalizing s with
  | nil => trivial
  | cons a rest ih =>
    exact ⟨always a List.mem_cons_self s,
      fun next _ => ih (fun b mem => always b (List.mem_cons_of_mem _ mem)) next⟩

theorem preservedMeeting {allowed : σ → α → Prop} {I : σ → Prop}
    (keep : ∀ s a t, I s → allowed s a → step s a = some t → I t)
    {s acts t} (meets : Meets step allowed s acts) (run : exec step s acts = some t)
    (start : I s) : I t := by
  induction acts generalizing s with
  | nil => cases run; exact start
  | cons a rest ih =>
    obtain ⟨next,first,later⟩ := execCons.mp run
    exact ih (meets.2 next first) later (keep s a next start meets.1 first)

theorem reaches {allowed : σ → α → Prop} {I : σ → Prop}
    (move : ∀ s a, I s → allowed s a → ∃ t, step s a = some t ∧ I t)
    {s acts} (meets : Meets step allowed s acts) (start : I s) :
    ∃ t, exec step s acts = some t ∧ I t := by
  induction acts generalizing s with
  | nil => exact ⟨s,rfl,start⟩
  | cons a rest ih =>
    obtain ⟨next,first,kept⟩ := move s a start meets.1
    obtain ⟨t,later,final⟩ := ih (meets.2 next first) kept
    exact ⟨t,execCons.mpr ⟨next,first,later⟩,final⟩

theorem meetsAppend {allowed : σ → α → Prop} {s xs ys} :
    Meets step allowed s (xs++ys) ↔
      Meets step allowed s xs ∧ ∀ mid, exec step s xs = some mid → Meets step allowed mid ys := by
  induction xs generalizing s with
  | nil => simp [Meets,exec]
  | cons x xs ih =>
    simp only [List.cons_append,Meets,ih,execCons]
    constructor
    · rintro ⟨now,rest⟩
      exact ⟨⟨now,fun next first => (rest next first).1⟩,
        fun mid ⟨next,first,left⟩ => (rest next first).2 mid left⟩
    · rintro ⟨⟨now,left⟩,right⟩
      exact ⟨now,fun next first => ⟨left next first,fun mid run => right mid ⟨next,first,run⟩⟩⟩

theorem simulated {τ : Type} {other : τ → α → Option τ} {R : σ → τ → Prop} {allowed : σ → α → Prop}
    (move : ∀ s t a, R s t → allowed s a →
      ∃ s' t', step s a = some s' ∧ other t a = some t' ∧ R s' t')
    {s t acts} (related : R s t) (meets : Meets step allowed s acts) :
    ∃ s' t', exec step s acts = some s' ∧ exec other t acts = some t' ∧ R s' t' := by
  induction acts generalizing s t with
  | nil => exact ⟨s,t,rfl,rfl,related⟩
  | cons a rest ih =>
    obtain ⟨s',t',left,right,kept⟩ := move s t a related meets.1
    obtain ⟨s'',t'',leftRest,rightRest,final⟩ := ih kept (meets.2 s' left)
    exact ⟨s'',t'',execCons.mpr ⟨s',left,leftRest⟩,execCons.mpr ⟨t',right,rightRest⟩,final⟩

end GuardedRun
