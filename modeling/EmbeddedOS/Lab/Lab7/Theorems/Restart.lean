import EmbeddedOS.Lab.Lab7.Theorems.Search

namespace Guessing

-- Another `guess` is started while `game` goes on, with what the last one has left in the block.
-- The signal of its last guess may still be pending.
def State.restart (upperBound : ℤ) (s : State) : State :=
  { State.initial upperBound s.myData with pending := s.pending }

variable {ans upperBound : ℤ} {s s' : State}

theorem starts_restart (h : (s.restart upperBound).Harmless ans) :
    (s.restart upperBound).Starts ans upperBound where
  lower    := rfl
  upper    := rfl
  guess    := rfl
  exited   := rfl
  harmless := h

-- `game` handles the pending signal before the new `guess` makes a guess.
theorem exists_answered (ans upperBound : ℤ) (s : State) :
    ∃ e : (inTurn ans).Run (s.restart upperBound)
      (.initial upperBound <| (s.restart upperBound).answered ans), e.history guessed = [] := by
  cases hp : s.pending
  case false =>
    have h : State.initial upperBound ((s.restart upperBound).answered ans) =
        s.restart upperBound := by
      simp [State.restart, State.answered, State.initial, hp]
    exact h ▸ ⟨.refl, rfl⟩
  case true =>
    have h : (inTurn ans).step (s.restart upperBound) .check =
        some (.initial upperBound <| (s.restart upperBound).answered ans) := by
      refine inTurn_eq_some_iff.mpr <| .inr ⟨rfl, hp, ?_⟩
      simp [State.restart, State.answered, State.initial, hp]
    exact ⟨.step .refl _ h, rfl⟩

-- The number stays between the bounds, and `guess` exits only after it has guessed the number.
def Restarts (ans upperBound : ℤ) (s : State) : Prop :=
  ∀ (s' : State) (e : (inTurn ans).Run (s.restart upperBound) s'),
    s'.Brackets ans ∧ (s'.exited → ∃ g ∈ e.history guessed, g.guess = ans)

theorem guessHandler_initial {d : Data} (h : d.Says "bingo") :
    (State.initial upperBound d).guessHandler =
      { State.initial upperBound d with exited := true } :=
  guessHandler_bingo h

-- The first tick believes what it finds: after "smaller", nothing is left, and after "bingo",
-- `guess` exits without a guess.
theorem harmless_of_restarts (ha : 1 ≤ ans) (h : Restarts ans upperBound s) :
    (s.restart upperBound).Harmless ans := by
  have ⟨e, he⟩ := exists_answered ans upperBound s
  have ⟨hb, hx⟩ := h _ <| e.step .tick <| inTurn_eq_some_iff.mpr <| .inl ⟨rfl, rfl, rfl, rfl⟩
  constructor
  case left =>
    intro hs
    have hu := hb.right
    rw [guessHandler_smaller hs] at hu
    simp only [State.guessBetween_upperBound, State.initial, zero_sub] at hu
    rw [C.int_eq (by decide) (by decide)] at hu
    omega
  case right =>
    intro hs
    simp [guessHandler_initial hs, Machine.Run.history, guessed, he] at hx

theorem restarts_of_harmless (hu : 2 * upperBound < 2 ^ 31) (ha : 1 ≤ ans) (ha' : ans ≤ upperBound)
    (h : (s.restart upperBound).Harmless ans) : Restarts ans upperBound s := by
  intro s' e
  have hp := State.Plays.run hu ha ha' (starts_restart h) e
  refine ⟨hp.brackets ha ha', fun hx => ?_⟩
  generalize e.history guessed = l at hp
  cases hp
  case starts hs            => simp [hs.exited] at hx
  case searches g l hs hg _ => exact ⟨g, by simp, hg.trans (hs.exited hx).right⟩

-- A new `guess` searches as it should exactly if the answer that the last one has left is "bigger",
-- or if there is none.
theorem restarts_iff_harmless (hu : 2 * upperBound < 2 ^ 31) (ha : 1 ≤ ans)
    (ha' : ans ≤ upperBound) :
    Restarts ans upperBound s ↔ (s.restart upperBound).Harmless ans :=
  ⟨harmless_of_restarts ha, restarts_of_harmless hu ha ha'⟩

-- The search for six when "bigger" is the answer to its first guess, and when the signal of its
-- second guess is pending.
def firstAnswer : State :=
  let s := (State.initial 10 .fresh).guessHandler
  { s with myData := s.myData.check 6, pending := false }

def secondGuess : State :=
  firstAnswer.guessHandler

-- What the first one leaves does no harm, but "smaller" is what the second one leaves.
theorem restarts_iff_harmless_six :
    (firstAnswer.myData.Says "bigger" ∧ Restarts 6 10 firstAnswer) ∧
      secondGuess.pending ∧ ¬Restarts 6 10 secondGuess := by
  refine ⟨⟨by decide, ?first⟩, rfl, ?second⟩
  case first =>
    exact (restarts_iff_harmless (by decide) (by decide) (by decide)).mpr ⟨by decide, by decide⟩
  case second =>
    intro h
    have hh := (restarts_iff_harmless (by decide) (by decide) (by decide)).mp h
    exact hh.left (by decide)

-- A game that has come to its end.
def finishedGame : List Action :=
  [.tick, .check, .tick, .check, .tick, .check, .tick]

theorem restarts_broken : ¬ ∀ (upperBound ans : ℤ) (d : Data) (s : State)
    (_ : (lab7 ans).Run (.initial upperBound d) s), 2 * upperBound < 2 ^ 31 → 1 ≤ ans →
    ans ≤ upperBound → C.string? d.result = some [] → Restarts ans upperBound s := by
  intro h
  have ⟨s, e, _, hs⟩ := Machine.Run.exists_of_exec (lab7 6) (fun _ _ => true) (.initial 10 .fresh)
    finishedGame (fun s => s.exited ∧ ¬s.pending ∧ s.myData.Says "bingo") (by decide)
  have ⟨_, hp, hb⟩ := of_decide_eq_true hs
  have hh := harmless_of_restarts (by decide) <|
    h _ _ _ s e (by decide) (by decide) (by decide) rfl
  simp [State.Harmless, State.answered, State.restart, State.initial, hp, hb] at hh

end Guessing
