import Mathlib.Probability.Distributions.Uniform

/-! A client and a server that answers at random. What the client asks next may depend
on all it has heard; nothing here knows what is asked. -/
namespace InteractionLaw
variable {α β σ τ ι ο : Type}

theorem bindSupport {p : PMF α} {f g : α → PMF β} (same : ∀ a ∈ p.support, f a = g a) :
    p.bind f = p.bind g := by
  ext b
  rw [PMF.bind_apply,PMF.bind_apply]
  refine tsum_congr fun a => ?_
  by_cases mem : a ∈ p.support
  · rw [same a mem]
  · rw [(PMF.apply_eq_zero_iff p a).mpr mem,zero_mul,zero_mul]

theorem uniformAt [Fintype α] [Nonempty α] {f : α → β} (injective : Function.Injective f) (a : α) :
    ((PMF.uniformOfFintype α).map f) (f a) = (Fintype.card α : ENNReal)⁻¹ := by
  rw [PMF.map_apply,tsum_eq_single a]
  · rw [if_pos rfl,PMF.uniformOfFintype_apply]
  · intro other apart
    exact if_neg fun same => apart (injective same).symm

theorem uniformMap [Fintype α] [Nonempty α] [Fintype β] [Nonempty β] {f : α → β}
    (bijective : Function.Bijective f) :
    (PMF.uniformOfFintype α).map f = PMF.uniformOfFintype β := by
  ext b
  obtain ⟨a,rfl⟩ := bijective.surjective b
  rw [uniformAt bijective.injective,PMF.uniformOfFintype_apply,Fintype.card_of_bijective bijective]

theorem uniformVectors [Fintype α] [Nonempty α] [DecidableEq ι] [Fintype ι] {f : α → α}
    (bijective : Function.Bijective f) :
    (PMF.uniformOfFintype (ι → α)).map (fun draws i => f (draws i)) = PMF.uniformOfFintype (ι → α) :=
  uniformMap (bijective.comp_left)

noncomputable def history (serve : σ → ι → PMF (ο × σ)) (client : List (ι × ο) → Option ι) :
    Nat → σ → List (ι × ο) → PMF (List (ι × ο) × σ)
  | 0,s,heard => PMF.pure (heard,s)
  | n+1,s,heard => match client heard with
    | none => PMF.pure (heard,s)
    | some request => (serve s request).bind fun answer =>
      history serve client n answer.2 (heard ++ [(request,answer.1)])

/- A server whose states show states of another server that answers by the same law, to
the requests that may be made after what has been heard. -/
theorem projects {serve : σ → ι → PMF (ο × σ)} {other : τ → ι → PMF (ο × τ)} {shows : τ → σ}
    {I : τ → List (ι × ο) → Prop} {asked : List (ι × ο) → ι → Prop} {client : List (ι × ο) → Option ι}
    (asks : ∀ heard request, client heard = some request → asked heard request)
    (answers : ∀ t heard request, I t heard → asked heard request →
      (other t request).map (fun answer => (answer.1,shows answer.2)) = serve (shows t) request)
    (keeps : ∀ t heard request, I t heard → asked heard request →
      ∀ answer ∈ (other t request).support, I answer.2 (heard ++ [(request,answer.1)]))
    (n : Nat) {t : τ} {heard : List (ι × ο)} (start : I t heard) :
    (history other client n t heard).map (fun seen => (seen.1,shows seen.2))
      = history serve client n (shows t) heard := by
  induction n generalizing t heard with
  | zero => exact PMF.pure_map _ _
  | succ n ih =>
    cases next : client heard with
    | none =>
      simp only [history,next]
      exact PMF.pure_map _ _
    | some request =>
      have sound := asks heard request next
      simp only [history,next]
      rw [PMF.map_bind,← answers t heard request start sound,PMF.bind_map]
      exact bindSupport fun answer mem => ih (keeps t heard request start sound answer mem)

end InteractionLaw
