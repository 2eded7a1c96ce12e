import EmbeddedOS.Library.Machine

namespace Machine

variable {σ τ α β γ : Type*}

-- The abstract state after a step with this label, or the same state if there is no label.
def follow (N : Machine τ β) (t : τ) : Option β → Option τ
  | some b => N.step t b
  | none   => some t

-- A machine refines another one when each of its steps that meets `C`, from a state that represents
-- an abstract state, is an abstract step that looks alike, or leaves the abstract state as it is
-- where there is nothing to be seen. What is seen of a step is `seen`, and `shown` of a label.
structure Refines (M : Machine σ α) (N : Machine τ β) (C : σ → α → Prop) (seen : σ → α → Option γ)
    (shown : β → Option γ) (R : σ → τ → Prop) : Prop where
  step : ∀ {s a s' t}, R s t → C s a → M.step s a = some s' →
    ∃ b t', N.follow t b = some t' ∧ b.bind shown = seen s a ∧ R s' t'

variable {M : Machine σ α} {N : Machine τ β} {C : σ → α → Prop} {seen : σ → α → Option γ}
variable {shown : β → Option γ} {R : σ → τ → Prop} {s₀ s : σ} {t₀ t t' : τ} {b : Option β}

theorem Run.exists_follow (e : N.Run t₀ t) (h : N.follow t b = some t') :
    ∃ f : N.Run t₀ t',
      f.history (fun _ b => shown b) = (b.bind shown).toList ++ e.history fun _ b => shown b := by
  cases b
  case none   => cases h; exact ⟨e, rfl⟩
  case some b => exact ⟨e.step b h, rfl⟩

-- Each run of the machine looks like a run of the abstract one and ends in what it represents.
theorem Refines.run (h : Refines M N C seen shown R) (h₀ : R s₀ t₀) (e : M.Run s₀ s)
    (hc : e.AllSteps C) :
    ∃ (t : τ) (f : N.Run t₀ t), R s t ∧ f.history (fun _ b => shown b) = e.history seen := by
  induction e
  case refl => exact ⟨t₀, .refl, h₀, rfl⟩
  case step e a hs ih =>
    have ⟨t, f, hr, hf⟩ := ih hc.left
    have ⟨b, t', ht, hb, hr'⟩ := h.step hr hc.right hs
    have ⟨g, hg⟩ : ∃ g : N.Run t₀ t', g.history (fun _ b => shown b) =
        (b.bind shown).toList ++ f.history fun _ b => shown b := f.exists_follow ht
    exact ⟨t', g, hr', by rw [hg, hf, hb]; rfl⟩

end Machine
