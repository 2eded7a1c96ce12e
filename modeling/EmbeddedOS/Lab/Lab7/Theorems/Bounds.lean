import EmbeddedOS.Lab.Lab7.Game

namespace Guessing

-- The bounds have not lost the number.
def State.Brackets (ans : ℤ) (s : State) : Prop :=
  s.lowerBound ≤ ans ∧ ans ≤ s.upperBound

instance (ans : ℤ) (s : State) : Decidable (s.Brackets ans) :=
  inferInstanceAs (Decidable (_ ∧ _))

-- At a tick, the answer that stands in the shared block is true of the guess that has been made
-- last as well.
def Current (ans : ℤ) (s : State) (a : Action) : Prop :=
  a = .tick → (s.myData.Says "smaller" → ans < s.guess) ∧ (s.myData.Says "bigger" → s.guess < ans)

-- The bounds pass each other by one at most.
structure State.Ranged (upperBound : ℤ) (s : State) : Prop where
  lower   : 1 ≤ s.lowerBound ∧ s.lowerBound ≤ upperBound + 1
  upper   : -1 ≤ s.upperBound ∧ s.upperBound ≤ upperBound
  guess   : 0 ≤ s.guess ∧ s.guess ≤ upperBound

-- What a step does: `guess` exits or guesses again, or `game` answers.
inductive Move (ans : ℤ) (s : State) : Action → State → Prop
  | smaller (hr : s.myData.Says "smaller") :
    Move ans s .tick (s.guessBetween s.lowerBound <| C.int (s.guess - 1))
  | bigger (hr : s.myData.Says "bigger") :
    Move ans s .tick (s.guessBetween (C.int (s.guess + 1)) s.upperBound)
  | bingo (hr : s.myData.Says "bingo") : Move ans s .tick { s with exited := true }
  | again (hs : ¬s.myData.Says "smaller") (hb : ¬s.myData.Says "bigger") :
    Move ans s .tick (s.guessBetween s.lowerBound s.upperBound)
  | check : Move ans s .check { s with myData := s.myData.check ans, pending := false }

variable {ans upperBound : ℤ} {s s' : State} {a : Action} {d : Data}

theorem Move.of_step (h : (lab7 ans).step s a = some s') : Move ans s a s' := by
  cases a <;> simp only [lab7, step] at h <;> split at h <;> cases h
  case check => exact .check
  case tick =>
    unfold State.guessHandler
    split
    case isTrue hs => exact .smaller hs
    split
    case isTrue hb => exact .bigger hb
    split
    case isTrue hr => exact .bingo hr
    case isFalse hs hb _ => exact .again hs hb

theorem not_bigger_of_smaller (h : d.Says "smaller") : ¬d.Says "bigger" := by
  intro hb
  have ht := Option.some.inj <| h.symm.trans hb
  simp [C.ascii] at ht

theorem not_smaller_of_bingo (h : d.Says "bingo") : ¬d.Says "smaller" ∧ ¬d.Says "bigger" := by
  constructor
  all_goals
    intro hs
    have ht := Option.some.inj <| h.symm.trans hs
    simp [C.ascii] at ht

namespace State.Ranged

theorem int_pred (hs : s.Ranged upperBound) (hu : 2 * upperBound < 2 ^ 31) :
    C.int (s.guess - 1) = s.guess - 1 :=
  C.int_eq (by have := hs.guess; omega) (by have := hs.guess; omega)

theorem int_succ (hs : s.Ranged upperBound) (hu : 2 * upperBound < 2 ^ 31) :
    C.int (s.guess + 1) = s.guess + 1 :=
  C.int_eq (by have := hs.guess; omega) (by have := hs.guess; omega)

-- A guess between bounds in range is in range, since their sum does not overflow.
theorem guessBetween (hu : 2 * upperBound < 2 ^ 31) {l u : ℤ}
    (hl : 1 ≤ l ∧ l ≤ upperBound + 1) (hu' : -1 ≤ u ∧ u ≤ upperBound) :
    (s.guessBetween l u).Ranged upperBound := by
  have hi : C.int (u + l) = u + l := C.int_eq (by omega) (by omega)
  have h₀ : 0 ≤ u + l := by omega
  refine ⟨hl, hu', ?_⟩
  rw [State.guessBetween_guess, hi, Int.tdiv_eq_ediv_of_nonneg h₀]
  omega

theorem move (hs : s.Ranged upperBound) (hu : 2 * upperBound < 2 ^ 31) (h : Move ans s a s') :
    s'.Ranged upperBound := by
  cases h
  case smaller =>
    have := hs.guess
    exact guessBetween hu hs.lower (by rw [hs.int_pred hu]; omega)
  case bigger =>
    have := hs.guess
    exact guessBetween hu (by rw [hs.int_succ hu]; omega) hs.upper
  case again => exact guessBetween hu hs.lower hs.upper
  case bingo => exact ⟨hs.lower, hs.upper, hs.guess⟩
  case check => exact ⟨hs.lower, hs.upper, hs.guess⟩

end State.Ranged

-- A tick keeps the number between the bounds exactly if it applies a current answer.
theorem brackets_move_iff (hu : 2 * upperBound < 2 ^ 31) (hr : s.Ranged upperBound)
    (hb : s.Brackets ans) (h : Move ans s a s') : s'.Brackets ans ↔ Current ans s a := by
  have ⟨hl, hu'⟩ := hb
  cases h
  case smaller hs =>
    have hc : Current ans s .tick ↔ ans < s.guess := by
      simp [Current, hs, not_bigger_of_smaller hs]
    simp only [State.Brackets, State.guessBetween, hr.int_pred hu, hc]
    omega
  case bigger hs =>
    have hc : Current ans s .tick ↔ s.guess < ans := by
      simp [Current, hs, mt not_bigger_of_smaller (not_not_intro hs)]
    simp only [State.Brackets, State.guessBetween, hr.int_succ hu, hc]
    omega
  case again hs hn => exact iff_of_true ⟨hl, hu'⟩ fun _ => ⟨(absurd · hs), (absurd · hn)⟩
  case bingo hs =>
    have ⟨hs', hn⟩ := not_smaller_of_bingo hs
    exact iff_of_true ⟨hl, hu'⟩ fun _ => ⟨(absurd · hs'), (absurd · hn)⟩
  case check => exact iff_of_true ⟨hl, hu'⟩ nofun

theorem ranged_initial (ha : 1 ≤ upperBound) : (State.initial upperBound d).Ranged upperBound where
  lower := ⟨le_rfl, by simp [State.initial]; omega⟩
  upper := ⟨by simp [State.initial]; omega, le_rfl⟩
  guess := ⟨le_rfl, by simp [State.initial]; omega⟩

-- The number stays between the bounds in all states of a run if and only if no tick applies an
-- answer to a guess that it is not true of. The block may hold anything before the first tick.
theorem brackets_iff_current (hu : 2 * upperBound < 2 ^ 31) (ha : 1 ≤ ans) (ha' : ans ≤ upperBound)
    (e : (lab7 ans).Run (.initial upperBound d) s) :
    e.AllStates (·.Brackets ans) ↔ e.AllSteps (Current ans) :=
  e.allStates_iff_allSteps (State.Ranged upperBound) _ (ranged_initial <| ha.trans ha') ⟨ha, ha'⟩
    (fun _ _ _ hr h => hr.move hu <| .of_step h)
    (fun _ _ _ hr hb h => brackets_move_iff hu hr hb <| .of_step h)

-- A block in which nothing has been answered yet.
def Data.fresh : Data where
  guess  := 0
  result := .replicate 8 0

-- `game` answers each guess before the next one.
def promptGame : List Action :=
  [.tick, .check, .tick, .check, .tick]

-- `game` does not answer the second guess in time, and the answer to the first is taken for it.
def lateGame : List Action :=
  [.tick, .check, .tick, .tick]

theorem brackets_iff_current_of_prompt_game :
    ∃ (s : State) (e : (lab7 6).Run (.initial 10 .fresh) s),
      s.guess = 6 ∧ (e.AllStates (·.Brackets 6) ↔ e.AllSteps (Current 6)) := by
  have ⟨s, e, _, hs⟩ := Machine.Run.exists_of_exec (lab7 6) (fun _ _ => true) (.initial 10 .fresh)
    promptGame (fun s => s.guess = 6) (by decide)
  exact ⟨s, e, of_decide_eq_true hs, brackets_iff_current (by decide) (by decide) (by decide) e⟩

theorem brackets_broken : ¬ ∀ (upperBound ans : ℤ) (d : Data) (s : State)
    (_ : (lab7 ans).Run (.initial upperBound d) s), 2 * upperBound < 2 ^ 31 → 1 ≤ ans →
    ans ≤ upperBound → C.string? d.result = some [] → s.exited = false → s.Brackets ans := by
  intro h
  have ⟨s, e, _, hs⟩ := Machine.Run.exists_of_exec (lab7 6) (fun _ _ => true) (.initial 10 .fresh)
    lateGame (fun s => ¬s.exited ∧ ¬s.Brackets 6) (by decide)
  have ⟨hx, hb⟩ := of_decide_eq_true hs
  exact hb <| h _ _ _ s e (by decide) (by decide) (by decide) rfl (by simpa using hx)

end Guessing
