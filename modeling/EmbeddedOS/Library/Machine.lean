import Mathlib

-- A machine is a labelled transition system whose steps can be computed. The label of a step says
-- who moves and which input it gets, `none` says that the label is not enabled in that state.
structure Machine (σ α : Type*) where
  step : σ → α → Option σ

namespace Machine

variable {σ α β : Type*} {M : Machine σ α} {s s₀ s₁ s₂ s₃ : σ} {a : α}

-- The finite executions of a machine, with the last step outermost.
inductive Run (M : Machine σ α) (s₀ : σ) : σ → Type _
  | refl : Run M s₀ s₀
  | step {s₁ s₂ : σ} (e : Run M s₀ s₁) (a : α) (h : M.step s₁ a = some s₂) : Run M s₀ s₂

namespace Run

-- Every step of the run is taken in a state that meets `C`.
def AllSteps (C : σ → α → Prop) : {s : σ} → M.Run s₀ s → Prop
  | _, refl                      => True
  | _, @step _ _ _ _ s₁ _ e a _ => e.AllSteps C ∧ C s₁ a

-- Every state that the run passes through, its first and last included, satisfies `P`.
def AllStates (P : σ → Prop) : {s : σ} → M.Run s₀ s → Prop
  | _, refl         => P s₀
  | s, step e _ _ => e.AllStates P ∧ P s

-- What `f` records of the steps of the run, newest first.
def history (f : σ → α → Option β) : {s : σ} → M.Run s₀ s → List β
  | _, refl                     => []
  | _, @step _ _ _ _ s₁ _ e a _ => (f s₁ a).toList ++ e.history f

variable {C D : σ → α → Prop} {I P : σ → Prop}

theorem AllStates.last {e : M.Run s₀ s} (h : e.AllStates P) : P s := by
  cases e
  case refl => exact h
  case step => exact h.right

theorem allSteps_true (e : M.Run s₀ s) : e.AllSteps (fun _ _ => True) := by
  induction e
  case refl          => trivial
  case step e _ _ hi => exact ⟨hi, trivial⟩

-- What holds in every state that can be reached holds before each step of a run.
theorem allSteps_reached (hI : ∀ {s} (_ : M.Run s₀ s), I s) (e : M.Run s₀ s) :
    e.AllSteps (fun s _ => I s) := by
  induction e
  case refl          => trivial
  case step e _ _ hi => exact ⟨hi, hI e⟩

theorem allSteps_enabled (e : M.Run s₀ s) : e.AllSteps (fun s a => (M.step s a).isSome) := by
  induction e
  case refl          => trivial
  case step e _ h hi => exact ⟨hi, by simp [h]⟩

theorem allStates_iff {e : M.Run s₀ s} :
    e.AllStates P ↔ e.AllSteps (fun s _ => P s) ∧ P s := by
  induction e
  case refl => simp [AllStates, AllSteps]
  case step e a h hi => simp only [AllStates, AllSteps, hi]

theorem AllSteps.and_reached (hI : ∀ {s} (e : M.Run s₀ s), e.AllSteps C → I s)
    {e : M.Run s₀ s} (hc : e.AllSteps C) : e.AllSteps (fun s a => I s ∧ C s a) := by
  induction e
  case refl          => trivial
  case step e _ _ hi => exact ⟨hi hc.left, hI e hc.left, hc.right⟩

theorem AllSteps.mono (h : ∀ s a, C s a → D s a) {e : M.Run s₀ s} (hc : e.AllSteps C) :
    e.AllSteps D := by
  induction e
  case refl        => trivial
  case step _ _ hi => exact ⟨hi hc.left, h _ _ hc.right⟩

theorem AllSteps.and {e : M.Run s₀ s} (hc : e.AllSteps C) (hd : e.AllSteps D) :
    e.AllSteps (fun s a => C s a ∧ D s a) := by
  induction e
  case refl        => trivial
  case step _ _ hi => exact ⟨hi hc.left hd.left, hc.right, hd.right⟩

-- The invariant rule: what holds at the start and is kept by each step that meets `C` holds at the
-- end of every run whose steps all meet `C`.
theorem invariant (h₀ : I s₀)
    (hs : ∀ s a s', I s → C s a → M.step s a = some s' → I s') (e : M.Run s₀ s)
    (hc : e.AllSteps C) : I s := by
  induction e
  case refl          => exact h₀
  case step e _ h hi => exact hs _ _ _ (hi hc.left) hc.right h

-- The same rule for invariants that know the history of the run.
theorem invariant_history {f : σ → α → Option β} {I : σ → List β → Prop} (h₀ : I s₀ [])
    (hs : ∀ s a s' l, I s l → C s a → M.step s a = some s' → I s' ((f s a).toList ++ l))
    (e : M.Run s₀ s) (hc : e.AllSteps C) : I s (e.history f) := by
  induction e
  case refl          => exact h₀
  case step e _ h hi => exact hs _ _ _ _ (hi hc.left) hc.right h

-- The exactness rule: when a step from a good state ends in a good state exactly if it meets `C`,
-- then a run stays in good states exactly if all of its steps meet `C`. The invariant `I` may be
-- used for both directions.
theorem allStates_iff_allSteps (I P : σ → Prop) (hi : I s₀) (h₀ : P s₀)
    (hI : ∀ s a s', I s → M.step s a = some s' → I s')
    (hP : ∀ s a s', I s → P s → M.step s a = some s' → (P s' ↔ C s a)) (e : M.Run s₀ s) :
    e.AllStates P ↔ e.AllSteps C := by
  induction e
  case refl => exact iff_of_true h₀ trivial
  case step e a h ih =>
    have hs := e.invariant hi (fun s a s' hi _ => hI s a s' hi) e.allSteps_true
    constructor
    case mp  => exact fun hp => ⟨ih.mp hp.left, (hP _ _ _ hs hp.left.last h).mp hp.right⟩
    case mpr => exact fun hc => ⟨ih.mpr hc.left, (hP _ _ _ hs (ih.mpr hc.left).last h).mpr hc.right⟩

end Run

section Restrict

variable {C : σ → α → Prop} [∀ s a, Decidable (C s a)]

-- The machine that takes only those steps that meet `C`.
def restrict (M : Machine σ α) (C : σ → α → Prop) [∀ s a, Decidable (C s a)] : Machine σ α where
  step s a := if C s a then M.step s a else none

theorem restrict_eq_some_iff :
    (M.restrict C).step s a = some s₁ ↔ C s a ∧ M.step s a = some s₁ := by
  simp [restrict]

end Restrict

-- Executes the labels one by one, as long as each one is enabled and passes the guard.
def exec (M : Machine σ α) (guard : σ → α → Bool) : σ → List α → Option σ
  | s, []      => some s
  | s, a :: as => if guard s a then (M.step s a).bind (M.exec guard · as) else none

theorem Run.cons (h : M.step s₁ a = some s₂) {C : σ → α → Prop} (hc : C s₁ a) (e : M.Run s₂ s₃)
    (he : e.AllSteps C) : ∃ f : M.Run s₁ s₃, f.AllSteps C := by
  induction e
  case refl => exact ⟨.step .refl _ h, trivial, hc⟩
  case step e a' h' hi =>
    have ⟨f, hf⟩ := hi he.left
    exact ⟨.step f a' h', hf, he.right⟩

theorem Run.of_exec {guard : σ → α → Bool} {as : List α} (h : M.exec guard s₁ as = some s₂) :
    ∃ e : M.Run s₁ s₂, e.AllSteps (guard · · = true) := by
  induction as generalizing s₁ <;> simp only [exec] at h
  case nil => cases h; exact ⟨.refl, trivial⟩
  case cons a as ih =>
    split at h
    case isFalse   => contradiction
    case isTrue hg =>
      obtain ⟨s, hs, he⟩ := Option.bind_eq_some_iff.mp h
      obtain ⟨e, hC⟩ := ih he
      exact Run.cons hs hg e hC

-- A schedule that can be executed and ends in a state that passes the test `f` is a run to such a
-- state. This is how the concrete schedules of the counterexamples are turned into runs.
theorem Run.exists_of_exec (M : Machine σ α) (guard : σ → α → Bool) (s₀ : σ) (as : List α)
    (f : σ → Bool) (h : (M.exec guard s₀ as).map f = some true) :
    ∃ (s : σ) (e : M.Run s₀ s), e.AllSteps (guard · · = true) ∧ f s = true := by
  obtain ⟨s, hs, hf⟩ := Option.map_eq_some_iff.mp h
  obtain ⟨e, he⟩ := Run.of_exec hs
  exact ⟨s, e, he, hf⟩

end Machine
