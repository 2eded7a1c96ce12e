import EmbeddedOS.Lab.Lab7.Theorems.Search

open Bisection

namespace Guessing

-- The sum of the bounds never exceeds the greatest `int`, and each guess lies between them.
def NeverOverflows (ans upperBound : ℤ) (d : Data) : Prop :=
  ∀ (s : State) (e : (inTurn ans).Run (.initial upperBound d) s),
    s.lowerBound + s.upperBound ≤ 2 ^ 31 - 1 ∧
    ∀ g ∈ e.history guessed, g.lowerBound ≤ g.guess ∧ g.guess ≤ g.upperBound

-- The search after the answer to a guess, with the bounds of that guess.
structure State.Resolved (ans upperBound : ℤ) (b : Bounds) (s : State) : Prop where
  searches : ∃ n, s.Searches ans upperBound n
  bounds   : s.bounds = b
  pending  : s.pending = false
  exited   : s.exited = false

variable {ans upperBound : ℤ} {s s' : State} {a : Action} {d : Data} {b : Bounds} {n : ℕ}

section Overflow

theorem sum_le_iff : s.lowerBound + s.upperBound ≤ 2 ^ 31 - 1 ↔ s.bounds.mid < 2 ^ 30 := by
  simp only [Bounds.mid, State.bounds]
  omega

theorem mid_lt_iff : b.mid < 2 ^ 30 ↔ b.upper + b.lower < 2 ^ 31 := by
  simp only [Bounds.mid]
  omega

-- As long as nothing has overflowed, the next guess and its answer are one more round.
theorem NeverOverflows.exists_round (hn : NeverOverflows ans upperBound d)
    (e : (inTurn ans).Run (.initial upperBound d) s) (hp : s.pending = false)
    (hx : s.exited = false) (hb : Left ans upperBound n b)
    (hg : s.guessHandler = s.guessBetween b.lower b.upper) :
    ∃ (s' : State) (_ : (inTurn ans).Run (.initial upperBound d) s'),
      s'.Resolved ans upperBound b := by
  have h : (inTurn ans).step s .tick = some (s.guessBetween b.lower b.upper) :=
    inTurn_eq_some_iff.mpr <| .inl ⟨rfl, hp, hx, hg⟩
  have hf : b.upper + b.lower < 2 ^ 31 :=
    mid_lt_iff.mp <| sum_le_iff.mp (hn _ <| e.step _ h).left
  have ⟨hx', hs⟩ := searches_guessBetween hb hf hx
  have h' : (inTurn ans).step (s.guessBetween b.lower b.upper) .check = some
      { s.guessBetween b.lower b.upper with
        myData := (s.guessBetween b.lower b.upper).myData.check ans, pending := false } :=
    inTurn_eq_some_iff.mpr <| .inr ⟨rfl, rfl, rfl⟩
  exact ⟨_, (e.step _ h).step _ h', ⟨n, hs.check hx'⟩, rfl, rfl, hx'⟩

-- All bounds of the bisection come up, if nothing overflows before.
theorem NeverOverflows.exists_iterate (hn : NeverOverflows ans upperBound d) (ha : 1 ≤ ans)
    (ha' : ans ≤ upperBound) (hd : C.string? d.result = some []) (n : ℕ) :
    ∃ (s : State) (_ : (inTurn ans).Run (.initial upperBound d) s),
      s.Resolved ans upperBound ((Bounds.halve ans)^[n] ⟨1, upperBound⟩) := by
  induction n
  case zero =>
    have hs : (State.initial upperBound d).Starts ans upperBound := starts_initial hd
    exact hn.exists_round .refl rfl rfl (.initial ha ha') (hs.guessHandler rfl)
  case succ n ih =>
    obtain ⟨s, e, hs⟩ := ih
    obtain ⟨k, hk⟩ := hs.searches
    rw [Function.iterate_succ_apply', ← hs.bounds]
    have hu : upperBound < 2 ^ 31 := by
      have h₀ := (hn _ .refl).left
      simp only [State.initial] at h₀
      omega
    cases hk.round hu hs.pending
    case inl hg =>
      rw [Bounds.halve_of_eq (hk.mid_bounds.trans hg.left)]
      exact ⟨s, e, hs.searches, rfl, hs.pending, hs.exited⟩
    case inr hg =>
      obtain ⟨hg, he⟩ := hg
      exact hn.exists_round e hs.pending hs.exited
        (hk.left.halve <| hk.mid_bounds.trans_ne hg) he

end Overflow

section Fits

-- A turn leaves the bounds as they are or is one comparison of the bisection.
theorem State.Plays.bounds_turn {l : List State} (hu : upperBound < 2 ^ 31)
    (hs : s.Plays ans upperBound l) (h : (inTurn ans).step s a = some s') :
    s'.bounds = s.bounds ∨ s'.bounds = s.bounds.halve ans := by
  obtain ⟨rfl, hp, hx, rfl⟩ | ⟨rfl, hp, rfl⟩ := inTurn_eq_some_iff.mp h
  case inl =>
    cases hs
    case starts hs =>
      rw [hs.guessHandler hp]
      exact .inl <| Bounds.ext hs.lower.symm hs.upper.symm
    case searches hs _ _ =>
      cases hs.round hu hp
      case inl he => exact .inl <| he.right ▸ rfl
      case inr he => exact .inr <| he.right ▸ rfl
  case inr => exact .inl rfl

-- If no sum of the bisection overflows, the bounds of the search are always among its bounds.
theorem plays_of_mid_lt (ha : 1 ≤ ans) (ha' : ans ≤ upperBound)
    (hd : C.string? d.result = some [])
    (hm : ∀ n, ((Bounds.halve ans)^[n] ⟨1, upperBound⟩).mid < 2 ^ 30)
    (e : (inTurn ans).Run (.initial upperBound d) s) :
    s.Plays ans upperBound (e.history guessed) ∧
      ∃ n, s.bounds = (Bounds.halve ans)^[n] ⟨1, upperBound⟩ := by
  have hu : upperBound + 1 < 2 ^ 31 := mid_lt_iff.mp (hm 0)
  refine e.invariant_history (I := fun s l => s.Plays ans upperBound l ∧
      ∃ n, s.bounds = (Bounds.halve ans)^[n] ⟨1, upperBound⟩)
    ⟨.starts (starts_initial hd), 0, rfl⟩ ?turn e.allSteps_true
  rintro s a s' l ⟨hs, n, hb⟩ - h
  have hn : s.bounds.halve ans = (Bounds.halve ans)^[n + 1] ⟨1, upperBound⟩ := by
    rw [hb, Function.iterate_succ_apply']
  have hf := mid_lt_iff.mp (hn ▸ hm (n + 1))
  refine ⟨hs.turn_of_fits hu hf ha ha' h, ?_⟩
  cases hs.bounds_turn (by omega) h
  case inl hb' => exact ⟨n, hb'.trans hb⟩
  case inr hb' => exact ⟨n + 1, hb'.trans hn⟩

end Fits

-- The search never overflows exactly if the number is in reach of a bisection all of whose middles
-- are below 2^30.
theorem neverOverflows_iff_le_reach (ha : 1 ≤ ans) (ha' : ans ≤ upperBound)
    (hd : C.string? d.result = some []) :
    NeverOverflows ans upperBound d ↔ ans ≤ Bounds.reach (2 ^ 30) ⟨1, upperBound⟩ := by
  rw [← Bounds.forall_mid_lt_iff ⟨ha, ha'⟩]
  constructor
  case mp =>
    intro hn n
    have ⟨s, e, hs⟩ := hn.exists_iterate ha ha' hd n
    rw [← hs.bounds]
    exact sum_le_iff.mp (hn s e).left
  case mpr =>
    intro hm s e
    have ⟨hs, n, hb⟩ := plays_of_mid_lt ha ha' hd hm e
    exact ⟨sum_le_iff.mpr <| hb ▸ hm n, hs.guesses_mem⟩

-- With fifteen hundred million numbers, one half of them is in reach.
example : Bounds.reach (2 ^ 30) ⟨1, 1500000000⟩ = 750000000 := by decide

theorem neverOverflows_of_half : NeverOverflows 750000000 1500000000 .fresh :=
  (neverOverflows_iff_le_reach (by decide) (by decide) rfl).mpr (by decide)

-- The second guess is made between 750000001 and 1500000000.
theorem neverOverflows_broken : ¬ ∀ (upperBound ans : ℤ) (d : Data), upperBound ≤ 2 ^ 31 - 1 →
    1 ≤ ans → ans ≤ upperBound → C.string? d.result = some [] →
    NeverOverflows ans upperBound d := by
  intro h
  have ⟨s, e, _, hs⟩ := Machine.Run.exists_of_exec (inTurn 1400000000) (fun _ _ => true)
    (.initial 1500000000 .fresh) [.tick, .check, .tick]
    (fun s => 2 ^ 31 ≤ s.lowerBound + s.upperBound) (by decide +kernel)
  have ⟨hf, _⟩ := h 1500000000 1400000000 .fresh (by decide) (by decide) (by decide) rfl s e
  have := of_decide_eq_true hs
  omega

end Guessing
