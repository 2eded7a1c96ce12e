import EmbeddedOS.Lab.Lab7.Theorems.Bounds
import EmbeddedOS.Library.Bisection
import EmbeddedOS.Library.Inevitable

open Bisection

namespace Guessing

-- The game as it is meant to be played: `game` has answered the last guess when the timer of
-- `guess` expires.
def inTurn (ans : ℤ) : Machine State Action :=
  (lab7 ans).restrict fun s a => a = .tick → ¬s.pending

-- The state in which a tick has made a guess.
def guessed (s : State) : Action → Option State
  | .tick  => if s.guessHandler.exited then none else some s.guessHandler
  | .check => none

-- `guess` as a search by bisection.
@[simps]
def State.bounds (s : State) : Bounds where
  lower := s.lowerBound
  upper := s.upperBound

-- The answer in the block is one to the guess in the block.
structure Data.Tells (ans : ℤ) (d : Data) : Prop where
  smaller : d.Says "smaller" ↔ ans < d.guess
  bigger  : d.Says "bigger" ↔ d.guess < ans
  bingo   : d.Says "bingo" ↔ d.guess = ans

-- What stands in the block once `game` has handled its signal.
def State.answered (ans : ℤ) (s : State) : Data :=
  if s.pending then s.myData.check ans else s.myData

-- A block does no harm to a `guess` that has not guessed yet if it would not take what stands there
-- for the answer to a guess. "bigger" only makes it set the lower bound to 0 + 1.
def State.Harmless (ans : ℤ) (s : State) : Prop :=
  ¬(s.answered ans).Says "smaller" ∧ ¬(s.answered ans).Says "bingo"

-- The search before its first guess.
structure State.Starts (ans upperBound : ℤ) (s : State) : Prop where
  lower    : s.lowerBound = 1
  upper    : s.upperBound = upperBound
  guess    : s.guess = 0
  exited   : s.exited = false
  harmless : s.Harmless ans

-- The search after `n + 1` guesses, with at most `upperBound / 2 ^ n` numbers left.
structure State.Searches (ans upperBound : ℤ) (n : ℕ) (s : State) : Prop where
  brackets : s.Brackets ans
  lower    : 1 ≤ s.lowerBound
  upper    : s.upperBound ≤ upperBound
  width    : (s.upperBound + 1 - s.lowerBound) * 2 ^ n ≤ upperBound
  guess    : s.guess = (s.upperBound + s.lowerBound) / 2
  shared   : s.myData.guess = s.guess
  answer   : s.pending = false → s.myData.Tells ans
  exited   : s.exited → s.pending = false ∧ s.guess = ans

-- The bounds of guess `n + 1`.
structure Left (ans upperBound : ℤ) (n : ℕ) (b : Bounds) : Prop where
  contains : b.Contains ans
  lower    : 1 ≤ b.lower
  upper    : b.upper ≤ upperBound
  width    : b.width * 2 ^ n ≤ upperBound

variable {ans upperBound : ℤ} {s s' : State} {a : Action} {d : Data} {n : ℕ} {b : Bounds}

theorem Data.tells_check (ans : ℤ) (d : Data) : (d.check ans).Tells ans := by
  unfold Data.check
  split
  case isTrue h =>
    constructor <;> simp only [Data.Says] <;> rw [C.string?_strcpy_iff (by simp [C.ascii])]
    case smaller => simpa using h
    case bigger  => simpa [C.ascii] using h.le
    case bingo   => simpa [C.ascii] using h.ne'
  split
  case isTrue h =>
    constructor <;> simp only [Data.Says] <;> rw [C.string?_strcpy_iff (by simp [C.ascii])]
    case smaller => simpa [C.ascii] using h.le
    case bigger  => simpa using h
    case bingo   => simpa [C.ascii] using h.ne
  case isFalse hg hl =>
    have h : d.guess = ans := by omega
    constructor <;> simp only [Data.Says] <;> rw [C.string?_strcpy_iff (by simp [C.ascii])]
    case smaller => simp [C.ascii, h]
    case bigger  => simp [C.ascii, h]
    case bingo   => simp [h]

@[simp]
theorem Data.guess_check (ans : ℤ) (d : Data) : (d.check ans).guess = d.guess := by
  unfold Data.check
  split
  case isTrue => rfl
  split <;> rfl

-- What `guess_handler` does, by the answer that it finds.
section Handler

theorem guessHandler_smaller (h : s.myData.Says "smaller") :
    s.guessHandler = s.guessBetween s.lowerBound (C.int (s.guess - 1)) := by
  rw [State.guessHandler, if_pos h]

theorem guessHandler_bigger (h : s.myData.Says "bigger") :
    s.guessHandler = s.guessBetween (C.int (s.guess + 1)) s.upperBound := by
  rw [State.guessHandler, if_neg fun hs => not_bigger_of_smaller hs h, if_pos h]

theorem guessHandler_bingo (h : s.myData.Says "bingo") :
    s.guessHandler = { s with exited := true } := by
  have ⟨hs, hb⟩ := not_smaller_of_bingo h
  rw [State.guessHandler, if_neg hs, if_neg hb, if_pos h]

theorem guessHandler_again (hs : ¬s.myData.Says "smaller") (hb : ¬s.myData.Says "bigger")
    (hn : ¬s.myData.Says "bingo") :
    s.guessHandler = s.guessBetween s.lowerBound s.upperBound := by
  rw [State.guessHandler, if_neg hs, if_neg hb, if_neg hn]

end Handler

-- A turn is a guess or an answer to it, the signal for which is not sent twice.
theorem inTurn_eq_some_iff : (inTurn ans).step s a = some s' ↔
    (a = .tick ∧ s.pending = false ∧ s.exited = false ∧ s.guessHandler = s') ∨
    (a = .check ∧ s.pending ∧
      { s with myData := s.myData.check ans, pending := false } = s') := by
  rw [inTurn, Machine.restrict_eq_some_iff]
  cases a <;> simp only [lab7, step]
  case tick  => cases s.pending <;> cases s.exited <;> simp
  case check => cases s.pending <;> simp

namespace Left

theorem initial (ha : 1 ≤ ans) (ha' : ans ≤ upperBound) :
    Left ans upperBound 0 ⟨1, upperBound⟩ where
  contains := ⟨ha, ha'⟩
  lower    := le_rfl
  upper    := le_rfl
  width    := by simp [Bounds.width]

theorem halve (h : Left ans upperBound n b) (hm : b.mid ≠ ans) :
    Left ans upperBound (n + 1) (b.halve ans) where
  contains := h.contains.halve
  lower    := h.lower.trans h.contains.lower_le_halve
  upper    := h.contains.halve_upper_le.trans h.upper
  width    :=
    calc
      (b.halve ans).width * 2 ^ (n + 1) = 2 * (b.halve ans).width * 2 ^ n := by ring
      _ ≤ b.width * 2 ^ n := by gcongr; exact Bounds.two_mul_width_halve_le hm
      _ ≤ upperBound      := h.width

-- The number itself is left, so there were not more guesses than halvings down to it.
theorem le_log (h : Left ans upperBound n b) : n ≤ Nat.log 2 upperBound.toNat := by
  have ⟨hl, hu⟩ := h.contains
  have hw : 1 ≤ b.width := by
    simp only [Bounds.width]
    omega
  have hp : (2 : ℤ) ^ n ≤ upperBound :=
    calc
      (2 : ℤ) ^ n = 1 * 2 ^ n := by ring
      _ ≤ b.width * 2 ^ n     := by gcongr
      _ ≤ upperBound          := h.width
  refine Nat.le_log_of_pow_le one_lt_two ?_
  zify
  rwa [Int.toNat_of_nonneg ((pow_nonneg zero_le_two n).trans hp)]

end Left

-- A guess between bounds whose sum does not overflow.
theorem searches_guessBetween (h : Left ans upperBound n b) (hf : b.upper + b.lower < 2 ^ 31)
    (hx : s.exited = false) :
    (s.guessBetween b.lower b.upper).exited = false ∧
      (s.guessBetween b.lower b.upper).Searches ans upperBound n where
  left  := hx
  right :=
    { brackets := h.contains
      lower    := h.lower
      upper    := h.upper
      width    := h.width
      guess    := by
        have ⟨_, _⟩ := h.contains
        have := h.lower
        rw [State.guessBetween_guess, C.int_eq (by omega) hf,
          Int.tdiv_eq_ediv_of_nonneg (by omega)]
        rfl
      shared   := rfl
      answer   := by simp
      exited   := by simp [hx] }

-- The bounds stay below half of the range of an `int`.
theorem sum_halve_lt (hu : 2 * upperBound < 2 ^ 31) (hb : s.Brackets ans)
    (hs : s.upperBound ≤ upperBound) :
    (s.bounds.halve ans).upper + (s.bounds.halve ans).lower < 2 ^ 31 := by
  have hc : s.bounds.Contains ans := hb
  have ⟨hl, hu'⟩ := hc.halve
  have hs' : (s.bounds.halve ans).upper ≤ s.upperBound := hc.halve_upper_le
  omega

namespace State.Searches

theorem left (hs : s.Searches ans upperBound n) : Left ans upperBound n s.bounds where
  contains := hs.brackets
  lower    := hs.lower
  upper    := hs.upper
  width    := hs.width

theorem mid_bounds (hs : s.Searches ans upperBound n) : s.bounds.mid = s.guess :=
  hs.guess.symm

theorem guess_mem (hs : s.Searches ans upperBound n) :
    s.lowerBound ≤ s.guess ∧ s.guess ≤ s.upperBound :=
  hs.guess ▸ ⟨hs.left.contains.lower_le_mid, hs.left.contains.mid_le_upper⟩

-- One round is one comparison of the bisection, whatever `game` answers.
theorem round (hs : s.Searches ans upperBound n) (hu : upperBound < 2 ^ 31)
    (hp : s.pending = false) :
    (s.guess = ans ∧ s.guessHandler = { s with exited := true }) ∨
    (s.guess ≠ ans ∧ s.guessHandler =
      s.guessBetween (s.bounds.halve ans).lower (s.bounds.halve ans).upper) := by
  have ht := hs.answer hp
  have hg := hs.mid_bounds
  have ⟨hl, hu'⟩ := hs.guess_mem
  have h₁ := hs.lower
  have h₂ := hs.upper
  rcases lt_trichotomy ans s.guess with h | h | h
  case inl =>
    have hd := ht.smaller.mpr (hs.shared ▸ h)
    rw [guessHandler_smaller hd, C.int_eq (by omega) (by omega), Bounds.halve_of_lt (hg ▸ h), hg]
    exact .inr ⟨h.ne', rfl⟩
  case inr.inl => exact .inl ⟨h.symm, guessHandler_bingo <| ht.bingo.mpr (hs.shared ▸ h.symm)⟩
  case inr.inr =>
    have hd := ht.bigger.mpr (hs.shared ▸ h)
    have ⟨_, ha⟩ := hs.brackets
    rw [guessHandler_bigger hd, C.int_eq (by omega) (by omega), Bounds.halve_of_gt (hg ▸ h), hg]
    exact .inr ⟨h.ne, rfl⟩

-- One round halves the numbers that are left, as long as the sum of the bounds does not overflow.
theorem tick (hs : s.Searches ans upperBound n) (hu : upperBound < 2 ^ 31)
    (hf : (s.bounds.halve ans).upper + (s.bounds.halve ans).lower < 2 ^ 31)
    (hp : s.pending = false) (hx : s.exited = false) :
    (s.guess = ans ∧ s.guessHandler = { s with exited := true }) ∨
    (s.guessHandler.exited = false ∧ s.guessHandler.Searches ans upperBound (n + 1)) := by
  cases hs.round hu hp
  case inl hg => exact .inl hg
  case inr hg =>
    have ⟨hg, he⟩ := hg
    rw [he]
    exact .inr <| searches_guessBetween (hs.left.halve <| hs.mid_bounds.trans_ne hg) hf hx

theorem exit (hs : s.Searches ans upperBound n) (hp : s.pending = false) (hg : s.guess = ans) :
    State.Searches ans upperBound n { s with exited := true } :=
  { hs with exited := fun _ => ⟨hp, hg⟩ }

theorem check (hs : s.Searches ans upperBound n) (hx : s.exited = false) :
    State.Searches ans upperBound n
      { s with myData := s.myData.check ans, pending := false } where
  brackets := hs.brackets
  lower    := hs.lower
  upper    := hs.upper
  width    := hs.width
  guess    := hs.guess
  shared   := by simp [hs.shared]
  answer   := fun _ => Data.tells_check ans s.myData
  exited   := by simp [hx]

end State.Searches

namespace State.Starts

-- The first guess is the same for every answer that does no harm.
theorem guessHandler (hs : s.Starts ans upperBound) (hp : s.pending = false) :
    s.guessHandler = s.guessBetween 1 upperBound := by
  have ⟨hn, hn'⟩ : ¬s.myData.Says "smaller" ∧ ¬s.myData.Says "bingo" := by
    simpa [State.Harmless, State.answered, hp] using hs.harmless
  by_cases hb : s.myData.Says "bigger"
  case pos =>
    rw [guessHandler_bigger hb, hs.guess, hs.upper, zero_add, C.int_eq (by decide) (by decide)]
  case neg => rw [guessHandler_again hn hb hn', hs.lower, hs.upper]

theorem tick (hs : s.Starts ans upperBound) (hu : upperBound + 1 < 2 ^ 31) (ha : 1 ≤ ans)
    (ha' : ans ≤ upperBound) (hp : s.pending = false) :
    s.guessHandler.exited = false ∧ s.guessHandler.Searches ans upperBound 0 := by
  rw [hs.guessHandler hp]
  exact searches_guessBetween (Left.initial ha ha') hu hs.exited

theorem check (hs : s.Starts ans upperBound) (hp : s.pending) :
    State.Starts ans upperBound { s with myData := s.myData.check ans, pending := false } where
  lower    := hs.lower
  upper    := hs.upper
  guess    := hs.guess
  exited   := hs.exited
  harmless := by simpa [State.Harmless, State.answered, hp] using hs.harmless

end State.Starts

-- Where the search is after the given guesses.
inductive State.Plays (ans upperBound : ℤ) (s : State) : List State → Prop
  | starts (h : s.Starts ans upperBound) : Plays ans upperBound s []
  | searches {g : State} {l : List State} (h : s.Searches ans upperBound l.length)
    (hg : g.guess = s.guess) (hl : ∀ t ∈ g :: l, t.lowerBound ≤ t.guess ∧ t.guess ≤ t.upperBound) :
    Plays ans upperBound s (g :: l)

namespace State.Plays

variable {l : List State}

theorem brackets (hs : s.Plays ans upperBound l) (ha : 1 ≤ ans) (ha' : ans ≤ upperBound) :
    s.Brackets ans := by
  cases hs
  case starts h       => exact ⟨h.lower ▸ ha, h.upper ▸ ha'⟩
  case searches h _ _ => exact h.brackets

theorem upper (hs : s.Plays ans upperBound l) : s.upperBound ≤ upperBound := by
  cases hs
  case starts h       => exact h.upper.le
  case searches h _ _ => exact h.upper

theorem turn_of_fits (hu : upperBound + 1 < 2 ^ 31)
    (hf : (s.bounds.halve ans).upper + (s.bounds.halve ans).lower < 2 ^ 31) (ha : 1 ≤ ans)
    (ha' : ans ≤ upperBound) (hs : s.Plays ans upperBound l)
    (h : (inTurn ans).step s a = some s') :
    s'.Plays ans upperBound ((guessed s a).toList ++ l) := by
  obtain ⟨rfl, hp, hx, rfl⟩ | ⟨rfl, hp, rfl⟩ := inTurn_eq_some_iff.mp h <;> cases hs
  case inl.starts hs =>
    have ⟨hx', ht⟩ := hs.tick hu ha ha' hp
    simp only [guessed, hx', Bool.false_eq_true, if_false, Option.toList, List.append_nil]
    exact .searches ht rfl (by simpa using ht.guess_mem)
  case inl.searches g l hs hg hl =>
    rcases hs.tick (by omega) hf hp hx with ⟨hg', he⟩ | ⟨hx', ht⟩
    case inl =>
      simp only [guessed, he, if_true, Option.toList, List.nil_append]
      exact .searches (hs.exit hp hg') hg hl
    case inr =>
      simp only [guessed, hx', Bool.false_eq_true, if_false, Option.toList, List.singleton_append]
      exact .searches ht rfl (List.forall_mem_cons.mpr ⟨ht.guess_mem, hl⟩)
  case inr.starts hs => exact .starts (hs.check hp)
  case inr.searches g l hs hg hl =>
    have hx : s.exited = false := by
      by_contra hc
      simp [(hs.exited (by simpa using hc)).left] at hp
    exact .searches (hs.check hx) hg hl

theorem turn (hu : 2 * upperBound < 2 ^ 31) (ha : 1 ≤ ans) (ha' : ans ≤ upperBound)
    (hs : s.Plays ans upperBound l) (h : (inTurn ans).step s a = some s') :
    s'.Plays ans upperBound ((guessed s a).toList ++ l) :=
  hs.turn_of_fits (by omega) (sum_halve_lt hu (hs.brackets ha ha') hs.upper) ha ha' h

theorem run (hu : 2 * upperBound < 2 ^ 31) (ha : 1 ≤ ans) (ha' : ans ≤ upperBound)
    (hs : s.Starts ans upperBound) (e : (inTurn ans).Run s s') :
    s'.Plays ans upperBound (e.history guessed) :=
  e.invariant_history (.starts hs) (fun _ _ _ _ hi _ h => hi.turn hu ha ha' h) e.allSteps_true

theorem length_le (hs : s.Plays ans upperBound l) : l.length ≤ Nat.log 2 upperBound.toNat + 1 := by
  cases hs
  case starts         => simp
  case searches h _ _ => exact Nat.succ_le_succ h.left.le_log

theorem guesses_mem (hs : s.Plays ans upperBound l) :
    ∀ g ∈ l, g.lowerBound ≤ g.guess ∧ g.guess ≤ g.upperBound := by
  cases hs
  case starts          => simp
  case searches _ _ hl => exact hl

-- If the last of the guesses that there can be were wrong, the next tick would make one more.
theorem bingo_of_last (hs : s.Plays ans upperBound l) (hu : 2 * upperBound < 2 ^ 31)
    (hl : l.length = Nat.log 2 upperBound.toNat + 1) (hp : s.pending = false) :
    s.myData.Says "bingo" := by
  cases hs
  case starts => simp at hl
  case searches g l hs _ _ =>
    have hg : s.guess = ans := by
      cases hx : s.exited
      case true => exact (hs.exited hx).right
      case false =>
        have hf := sum_halve_lt hu hs.brackets hs.upper
        rcases hs.tick (by omega) hf hp hx with ⟨hg, _⟩ | ⟨_, ht⟩
        case inl => exact hg
        case inr =>
          have := ht.left.le_log
          simp only [List.length_cons] at hl
          omega
    exact (hs.answer hp).bingo.mpr <| hs.shared.trans hg

-- `guess` only exits once one of its guesses has been answered with "bingo".
theorem bingo_of_exited (hs : s.Plays ans upperBound l) (hx : s.exited) :
    s.myData.Says "bingo" ∧ ∃ g ∈ l, g.guess = ans := by
  cases hs
  case starts hs => simp [hs.exited] at hx
  case searches g l hs hg _ =>
    have ⟨hp, ha⟩ := hs.exited hx
    exact ⟨(hs.answer hp).bingo.mpr <| hs.shared.trans ha, g, by simp, hg.trans ha⟩

end State.Plays

-- The turns until the end: each guess that there may still be has an answer.
def turnsLeft (upperBound : ℤ) (s : State) (l : List State) : ℕ :=
  2 * (Nat.log 2 upperBound.toNat + 1 - l.length) + if s.pending then 1 else 0

theorem turnsLeft_lt (hu : 2 * upperBound < 2 ^ 31) (ha : 1 ≤ ans) (ha' : ans ≤ upperBound)
    {l : List State} (hs : s.Plays ans upperBound l) (h : (inTurn ans).step s a = some s')
    (hx : s'.exited = false) :
    turnsLeft upperBound s' ((guessed s a).toList ++ l) < turnsLeft upperBound s l := by
  have hl := (hs.turn hu ha ha' h).length_le
  obtain ⟨rfl, hp, hx', rfl⟩ | ⟨rfl, hp, rfl⟩ := inTurn_eq_some_iff.mp h
  case inl =>
    simp only [guessed, hx, Bool.false_eq_true, if_false, Option.toList, List.length_append,
      List.length_singleton, turnsLeft, hp] at hl ⊢
    split <;> omega
  case inr => simp [turnsLeft, guessed, hp]

theorem State.Starts.inevitable (hs : s.Starts ans upperBound) (hu : 2 * upperBound < 2 ^ 31)
    (ha : 1 ≤ ans) (ha' : ans ≤ upperBound) : (inTurn ans).Inevitable (·.exited) s := by
  refine .of_bound (I := fun n s => ∃ l, s.Plays ans upperBound l ∧ turnsLeft upperBound s l = n)
    ⟨[], .starts hs, rfl⟩ ?progress ?nearer
  case progress =>
    intro _ s _ hx
    cases hp : s.pending
    case false =>
      exact ⟨.tick, Option.isSome_iff_exists.mpr ⟨_, inTurn_eq_some_iff.mpr <|
        .inl ⟨rfl, hp, by simpa using hx, rfl⟩⟩⟩
    case true =>
      exact ⟨.check, Option.isSome_iff_exists.mpr ⟨_, inTurn_eq_some_iff.mpr <|
        .inr ⟨rfl, hp, rfl⟩⟩⟩
  case nearer =>
    rintro _ s a s' ⟨l, hp, rfl⟩ h
    cases hx : s'.exited
    case false => exact .inr ⟨_, turnsLeft_lt hu ha ha' hp h hx, _, hp.turn hu ha ha' h, rfl⟩
    case true  => exact .inl rfl

-- Nothing has been answered before the first guess.
theorem starts_initial (hd : C.string? d.result = some []) :
    (State.initial upperBound d).Starts ans upperBound where
  lower    := rfl
  upper    := rfl
  guess    := rfl
  exited   := rfl
  harmless := by
    simp [State.Harmless, State.answered, State.initial, Data.Says, hd, C.ascii]

-- When each guess is answered before the next tick, the number stays between the bounds, every
-- guess lies between them, and one of the first log₂ + 1 guesses is answered with "bingo",
-- whereupon the next tick ends the search, and no other one does. No game can avoid either.
theorem inTurn_finds (hu : 2 * upperBound < 2 ^ 31) (ha : 1 ≤ ans) (ha' : ans ≤ upperBound)
    (hd : C.string? d.result = some []) :
    (∀ (s : State) (e : (inTurn ans).Run (.initial upperBound d) s),
      s.Brackets ans ∧
      (∀ g ∈ e.history guessed, g.lowerBound ≤ g.guess ∧ g.guess ≤ g.upperBound) ∧
      (e.history guessed).length ≤ Nat.log 2 upperBound.toNat + 1 ∧
      ((e.history guessed).length = Nat.log 2 upperBound.toNat + 1 → ¬s.pending →
        s.myData.Says "bingo") ∧
      (s.myData.Says "bingo" → ∀ s', (inTurn ans).step s .tick = some s' → s'.exited) ∧
      (s.exited → s.myData.Says "bingo" ∧ ∃ g ∈ e.history guessed, g.guess = ans)) ∧
    (inTurn ans).Inevitable (·.myData.Says "bingo") (.initial upperBound d) ∧
    (inTurn ans).Inevitable (·.exited) (.initial upperBound d) := by
  have h₀ : (State.initial upperBound d).Starts ans upperBound := starts_initial hd
  have hi := h₀.inevitable hu ha ha'
  refine ⟨fun s e => ?run, ?bingo, hi⟩
  case run =>
    have hp := State.Plays.run hu ha ha' h₀ e
    refine ⟨hp.brackets ha ha', hp.guesses_mem, hp.length_le, ?last, ?exit, hp.bingo_of_exited⟩
    case last => exact fun hl hn => hp.bingo_of_last hu hl (by simpa using hn)
    case exit =>
      intro hb s' h
      obtain ⟨_, _, _, rfl⟩ | ⟨ht, _⟩ := inTurn_eq_some_iff.mp h
      case inl => rw [guessHandler_bingo hb]
      case inr => contradiction
  case bingo =>
    apply hi.imp (I := fun s => ∃ l, s.Plays ans upperBound l) ⟨[], .starts h₀⟩
    case hs => exact fun _ _ _ ⟨_, hp⟩ h => ⟨_, hp.turn hu ha ha' h⟩
    case hq => exact fun _ ⟨_, hp⟩ hx => (hp.bingo_of_exited hx).left

-- With ten numbers, the fourth guess is right at the latest.
theorem inTurn_finds_six :
    (∀ (s : State) (e : (inTurn 6).Run (.initial 10 .fresh) s),
      s.Brackets 6 ∧
      (∀ g ∈ e.history guessed, g.lowerBound ≤ g.guess ∧ g.guess ≤ g.upperBound) ∧
      (e.history guessed).length ≤ 4 ∧
      ((e.history guessed).length = 4 → ¬s.pending → s.myData.Says "bingo") ∧
      (s.myData.Says "bingo" → ∀ s', (inTurn 6).step s .tick = some s' → s'.exited) ∧
      (s.exited → s.myData.Says "bingo" ∧ ∃ g ∈ e.history guessed, g.guess = 6)) ∧
    (inTurn 6).Inevitable (·.myData.Says "bingo") (.initial 10 .fresh) ∧
    (inTurn 6).Inevitable (·.exited) (.initial 10 .fresh) := by
  have hl : Nat.log 2 (10 : ℤ).toNat + 1 = 4 :=
    congrArg (· + 1) <| (Nat.log_eq_iff (by decide)).mpr (by decide)
  have h := @inTurn_finds 6 10 .fresh (by decide) (by decide)
    (by decide) rfl
  rwa [hl] at h

end Guessing
