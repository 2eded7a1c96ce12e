import EmbeddedOS.Library.Machine

namespace Machine

variable {σ α : Type*} {M : Machine σ α} {P : σ → Prop} {s s' : σ} {a : α}

-- Every execution from a state comes to a state that satisfies `P`: it can neither be stuck before
-- nor go on for ever without.
inductive Inevitable (M : Machine σ α) (P : σ → Prop) : σ → Prop
  | now {s : σ} (h : P s) : Inevitable M P s
  | later {s : σ} (h : ∃ a, (M.step s a).isSome)
    (hs : ∀ a s', M.step s a = some s' → Inevitable M P s') : Inevitable M P s

namespace Inevitable

-- Where there is only one way on, all depends on the next state.
theorem iff_of_step (hp : ¬P s) (h : M.step s a = some s') (ho : ∀ b, b ≠ a → M.step s b = none) :
    M.Inevitable P s ↔ M.Inevitable P s' := by
  constructor
  case mp =>
    intro hi
    cases hi
    case now hp'    => contradiction
    case later _ hs => exact hs a s' h
  case mpr =>
    intro hi
    refine .later ⟨a, by simp [h]⟩ fun b t ht => ?_
    by_cases hb : b = a
    case pos =>
      subst hb
      exact Option.some.inj (h.symm.trans ht) ▸ hi
    case neg => simp [ho b hb] at ht

theorem not_of_stuck (hp : ¬P s) (h : ∀ a, M.step s a = none) : ¬M.Inevitable P s := by
  intro hi
  cases hi
  case now hp'    => contradiction
  case later he _ =>
    have ⟨a, ha⟩ := he
    simp [h a] at ha

-- What is inevitable can be reached.
theorem exists_run (h : M.Inevitable P s) : ∃ (s' : σ) (_ : M.Run s s'), P s' := by
  induction h
  case now hp           => exact ⟨_, .refl, hp⟩
  case later he _ ih =>
    have ⟨a, ha⟩ := he
    obtain ⟨s₁, hs⟩ := Option.isSome_iff_exists.mp ha
    have ⟨s', e, hp⟩ := ih a s₁ hs
    have ⟨f, _⟩ := Run.cons (C := fun _ _ => True) hs trivial e e.allSteps_true
    exact ⟨s', f, hp⟩

-- Under an invariant, what follows from the inevitable is inevitable.
theorem imp {I Q : σ → Prop} (h : M.Inevitable P s) (h₀ : I s)
    (hs : ∀ s a s', I s → M.step s a = some s' → I s') (hq : ∀ s, I s → P s → Q s) :
    M.Inevitable Q s := by
  induction h
  case now hp         => exact .now <| hq _ h₀ hp
  case later he _ ih  => exact .later he fun a s' h => ih a s' h <| hs _ a s' h₀ h

-- The rule for what does happen: as long as it has not, there is a step, and each step brings it
-- nearer. `I n` holds of the states that are at most `n` steps away from it.
theorem of_bound {I : ℕ → σ → Prop} {n : ℕ} (h₀ : I n s)
    (he : ∀ n s, I n s → ¬P s → ∃ a, (M.step s a).isSome)
    (hs : ∀ n s a s', I n s → M.step s a = some s' → P s' ∨ ∃ m < n, I m s') :
    M.Inevitable P s := by
  induction n using Nat.strong_induction_on generalizing s
  case h n ih =>
    by_cases hp : P s
    case pos => exact .now hp
    case neg =>
      refine .later (he n s h₀ hp) fun a s' h => ?_
      rcases hs n s a s' h₀ h with hp' | ⟨m, hm, hi⟩
      case inl => exact .now hp'
      case inr => exact ih m hm hi

-- The rule for what never happens: an invariant excludes it.
theorem not_of_invariant {I : σ → Prop} (h₀ : I s)
    (hs : ∀ s a s', I s → M.step s a = some s' → I s') (hI : ∀ s, I s → ¬P s) :
    ¬M.Inevitable P s := by
  intro h
  have ⟨s', e, hp⟩ := h.exists_run
  exact hI s' (e.invariant h₀ (fun s a s' hi _ => hs s a s' hi) e.allSteps_true) hp

end Inevitable
end Machine
