import EmbeddedOS.Lab.Lab6.Theorems.Cuts
import EmbeddedOS.Library.Machine

open C

namespace Atm

-- One round of the loop of `bank`, from one call of `recv` to the next.
def Bank.round (x : ℤ × Bank) (r : Received) : Option (ℤ × Bank) :=
  (x.2.recv r).map fun b => run 3 (x.1, b)

-- The loop of one thread with the balance, for the outcomes of `recv` that the thread sees.
def bankLoop : Machine (ℤ × Bank) Received where
  step := Bank.round

-- The balance moves only if there are data, and without data the loop ends.
def Orderly (x : ℤ × Bank) (r : Received) : Prop :=
  ∀ y, bankLoop.step x r = some y →
    (y.1 ≠ x.1 → ∃ bytes, r = .bytes bytes) ∧ ((∀ bytes, r ≠ .bytes bytes) → y.2.pc = .ended)

-- The command of the last round is still in its place, and it was not the one to leave the loop.
structure Bank.Stale (b : Bank) : Prop where
  pc      : b.pc = .recv
  command : ∃ k, scan b.receive b.whatToDo = some (b.whatToDo, k)
  going   : b.whatToDo ≠ ascii "exit"

variable {b b' : Bank} {money : ℤ} {x y : ℤ × Bank} {r : Received}

-- The word that has been read is read again.
theorem scan_again {receive whatToDo word : List UInt8} {k : ℤ}
    (h : scan receive whatToDo = some (word, k)) : scan receive word = some (word, k) := by
  simp only [scan, Option.bind_eq_some_iff] at h ⊢
  obtain ⟨text, ht, h⟩ := h
  refine ⟨text, ht, ?_⟩
  cases hw : scanWord text
  case none =>
    simp only [hw, Option.some.injEq, Prod.mk.injEq] at h
    simp [h.right]
  case some p => simpa only [hw] using h

namespace Bank

theorem stale_start : start.Stale where
  pc      := rfl
  command := ⟨0, by simp [scan, string?, start, scanWord]⟩
  going   := by decide

-- What has been read decides how a round goes on.
theorem run_cases (hpc : b.pc = .handle) :
    (run 3 (money, b)).2.pc = .ended ∨ (run 3 (money, b)).2.pc = .faulted ∨
      (run 3 (money, b)).2.Stale := by
  cases hs : scan b.receive b.whatToDo
  case none =>
    have h : b.step money = some (money, b.goto .faulted) := by simp [step, hpc, hs]
    rw [run_some h, run_none rfl]
    exact .inr <| .inl rfl
  case some p =>
    obtain ⟨word, k⟩ := p
    by_cases hx : word = ascii "exit"
    case pos =>
      subst hx
      rw [run_exit hpc hs]
      exact .inl rfl
    by_cases ho : ∃ op, word = Operation.name op
    case pos =>
      obtain ⟨op, rfl⟩ := ho
      rw [run_op hpc hs]
      exact .inr <| .inr ⟨rfl, ⟨k, scan_again hs⟩, hx⟩
    case neg =>
      rw [run_other hpc hs (not_exists.mp ho) hx]
      exact .inr <| .inr ⟨rfl, ⟨k, scan_again hs⟩, hx⟩

theorem recv_error (hpc : b.pc = .recv) : b.recv .error = some (b.goto .handle) := by
  simp [recv, hpc]

-- An error makes the thread carry out its last command once more, and the loop goes on.
theorem Stale.error_op (hs : b.Stale) {op : Operation} (ho : b.whatToDo = op.name) {k : ℤ}
    (hk : scan b.receive b.whatToDo = some (b.whatToDo, k)) :
    bankLoop.step (money, b) .error = some (op.apply k money, b) := by
  have hr : run 3 (money, b.goto .handle) = _ := run_op rfl (hk.trans (by rw [ho]))
  simp [bankLoop, round, recv_error hs.pc, hr, ← ho, ← hs.pc]

theorem Stale.error_other (hs : b.Stale) (ho : ∀ op, b.whatToDo ≠ Operation.name op) :
    bankLoop.step (money, b) .error = some (money, b) := by
  obtain ⟨k, hk⟩ := hs.command
  have hr : run 3 (money, b.goto .handle) = _ := run_other rfl hk ho hs.going
  simp [bankLoop, round, recv_error hs.pc, hr, ← hs.pc]

theorem Stale.error (hs : b.Stale) :
    ∃ money', bankLoop.step (money, b) .error = some (money', b) := by
  by_cases ho : ∃ op, b.whatToDo = Operation.name op
  case pos =>
    obtain ⟨op, ho⟩ := ho
    obtain ⟨k, hk⟩ := hs.command
    exact ⟨_, hs.error_op ho hk⟩
  case neg => exact ⟨_, hs.error_other (not_exists.mp ho)⟩

-- Between two rounds, the loop has ended or the last command is in its place.
def Between (b : Bank) : Prop :=
  b.pc = .ended ∨ b.pc = .faulted ∨ b.Stale

theorem recv_of_round (h : bankLoop.step x r = some y) : x.2.pc = .recv := by
  by_contra hn
  cases r <;> simp [bankLoop, round, recv, hn] at h

theorem round_eof (hpc : b.pc = .recv) :
    bankLoop.step (money, b) .eof = some (money, b.goto .ended) := by
  have hr : b.recv .eof = some (b.goto .ended) := by simp [recv, hpc]
  simp only [bankLoop, round, hr, Option.map_some]
  rw [run_none rfl]

theorem Between.round (hb : x.2.Between) (h : bankLoop.step x r = some y) : y.2.Between := by
  have hpc := recv_of_round h
  cases r
  case bytes chunk =>
    obtain ⟨b, hr, rfl⟩ := Option.map_eq_some_iff.mp h
    simp only [recv] at hr
    split at hr
    case isFalse => contradiction
    case isTrue  => cases hr; exact run_cases rfl
  case eof =>
    cases (round_eof hpc).symm.trans h
    exact .inl rfl
  case error =>
    obtain hs | hs | hs := hb
    case inl     => simp [hpc] at hs
    case inr.inl => simp [hpc] at hs
    case inr.inr =>
      obtain ⟨money', he⟩ : ∃ money', bankLoop.step (x.1, x.2) .error = some (money', x.2) :=
        hs.error
      cases he.symm.trans h
      exact .inr <| .inr hs

end Bank

theorem between_run (e : bankLoop.Run (money, .start) x) : x.2.Between :=
  e.invariant (I := fun x => x.2.Between) (.inr <| .inr Bank.stale_start)
    (fun _ _ _ hb _ h => hb.round h) e.allSteps_true

-- A round without an error is as it should be, one with an error never is.
theorem orderly_iff_of_between (hb : x.2.Between) (h : (bankLoop.step x r).isSome) :
    Orderly x r ↔ r ≠ .error := by
  obtain ⟨y, hy⟩ := Option.isSome_iff_exists.mp h
  have hpc := Bank.recv_of_round hy
  constructor
  case mp =>
    rintro ho rfl
    obtain hs | hs | hs := hb
    case inl     => simp [hpc] at hs
    case inr.inl => simp [hpc] at hs
    case inr.inr =>
      obtain ⟨money', he⟩ : ∃ money', bankLoop.step (x.1, x.2) .error = some (money', x.2) :=
        hs.error
      have hx := (ho _ he).right (by simp)
      simp [hpc] at hx
  case mpr =>
    intro hr z hz
    cases r
    case bytes chunk => exact ⟨fun _ => ⟨chunk, rfl⟩, fun hn => absurd rfl (hn chunk)⟩
    case error       => contradiction
    case eof =>
      cases (Bank.round_eof hpc).symm.trans hz
      exact ⟨fun hn => absurd rfl hn, fun _ => rfl⟩

-- The balance of one thread moves only with data, and its loop ends at the first outcome without,
-- exactly if no call of `recv` fails.
theorem orderly_iff_no_error (e : bankLoop.Run (money, .start) x) :
    e.AllSteps Orderly ↔ e.AllSteps fun _ r => r ≠ .error := by
  have hb := (Machine.Run.allSteps_reached (I := fun x => x.2.Between) between_run e).and
    e.allSteps_enabled
  constructor
  case mp =>
    intro ho
    exact (hb.and ho).mono fun _ _ ⟨⟨hb, h⟩, ho⟩ => (orderly_iff_of_between hb h).mp ho
  case mpr =>
    intro hr
    exact (hb.and hr).mono fun _ _ ⟨⟨hb, h⟩, hr⟩ => (orderly_iff_of_between hb h).mpr hr

-- The thread after the message of the examples.
def deposited : Bank where
  receive  := (Record.money depositTen).bytes
  whatToDo := Operation.name .deposit
  pc       := .recv

theorem orderly_broken : ¬ ∀ (money : ℤ) (x : ℤ × Bank) (e : bankLoop.Run (money, .start) x),
    e.AllSteps Orderly := by
  intro h
  have h₁ : bankLoop.step (0, .start) (.bytes (Record.money depositTen).bytes) =
      some (10, deposited) := by decide +kernel
  have h₂ : bankLoop.step (10, deposited) .error = some (20, deposited) := by decide +kernel
  have ⟨_, ho⟩ := h 0 _ ((Machine.Run.refl.step _ h₁).step _ h₂)
  obtain ⟨_, hr⟩ := (ho _ h₂).left (by decide)
  cases hr

end Atm
