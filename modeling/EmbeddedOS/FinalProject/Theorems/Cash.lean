import EmbeddedOS.FinalProject.Theorems.Semaphores
import EmbeddedOS.Library.CInt

namespace Parking

-- The fee of a payment that has left the cash section, and the fees of all of them.
def Event.income : Event → ℤ
  | credited _ _ _ fee => fee
  | _ => 0

def Memory.income (m : Memory) : ℤ :=
  (m.log.map Event.income).sum

-- The fee that `*cash` has already got from a payment that is still inside of the section.
def Payment.stored (p : Payment) : ℤ :=
  match p.pc with
  | .releaseCash q => q.fee
  | _ => 0

-- What a payment inside of the cash section has loaded, and what it has computed from it.
def Payment.Loaded (m : Memory) (p : Payment) : Prop :=
  match p.pc with
  | .addCash _ cash   => cash = m.cash
  | .storeCash q cash => cash = C.int (m.cash + q.fee)
  | _ => True

namespace Task

def stored : Task → ℤ
  | payment p => p.stored
  | _ => 0

def Loaded (m : Memory) : Task → Prop
  | payment p => p.Loaded m
  | _ => True

end Task

def Child.stored (c : Child) : ℤ :=
  c.task.stored

variable {m m' : Memory} {pid : ℕ} {clock : ℤ} {s s' : State}

-- What a statement does to the books: `*cash` and the fees stay as they are, or the statement is
-- the one that writes `*cash` back.
inductive CashStep (m : Memory) (t : Task) (m' : Memory) (t' : Task) : Prop
  | same (hc : m'.cash = m.cash) (hi : m'.income + t'.stored = m.income + t.stored)
  | store (p : Payment) (q : Quote) (cash : ℤ) (ht : t = .payment p) (hp : p.pc = .storeCash q cash)
      (hc : m'.cash = cash) (hi : m'.income + t'.stored = m.income + t.stored + q.fee)

namespace CashStep

theorem of_entry {e e' : Entry} (h : e.Move pid m m' e') :
    CashStep m (.entry e) m' (.entry e') := by
  cases h <;> exact .same rfl (by simp [Memory.income, Event.income, Task.stored])

theorem of_exitpark {x x' : Exitpark} (h : x.Move pid m m' x') :
    CashStep m (.exitpark x) m' (.exitpark x') := by
  cases h <;> exact .same rfl (by simp [Memory.income, Event.income, Task.stored])

theorem of_payment {p p' : Payment} (h : p.Move pid m m' p') :
    CashStep m (.payment p) m' (.payment p') := by
  cases h
  case storeCash q cash hpc =>
    exact .store p q cash rfl hpc rfl
      (by simp [Memory.income, Task.stored, Payment.stored, hpc])
  case releaseCash hpc =>
    exact .same rfl
      (by simp [Memory.income, Event.income, Task.stored, Payment.stored, hpc, add_comm])
  all_goals
    exact .same rfl (by simp [Memory.income, Event.income, Task.stored, Payment.stored, *])

theorem of_move {t t' : Task} (h : t.Move pid m m' t') : CashStep m t m' t' := by
  cases h
  case entry h    => exact of_entry h
  case exitpark h => exact of_exitpark h
  case payment h  => exact of_payment h

end CashStep

theorem Task.Read.stored {t t' : Task} {bytes : List UInt8} (h : t.Read bytes t') :
    t'.stored = t.stored := by
  cases h <;> simp [Task.stored, Payment.stored, *]

theorem Task.Read.loaded {t t' : Task} {bytes : List UInt8} (h : t.Read bytes t') :
    t'.Loaded m := by
  cases h <;> trivial

theorem Task.stored_of_not_insideMutex {t : Task} (h : t.insideMutex = false) : t.stored = 0 := by
  cases t
  case payment p =>
    cases hpc : p.pc <;> simp_all [insideMutex, Payment.insideMutex, stored, Payment.stored]
  all_goals rfl

-- A child inside of the cash section keeps what it has loaded as long as nobody else is in there.
theorem Task.Loaded.move {t t' : Task} (hl : t.Loaded m) (h : t.Move pid m m' t') :
    t'.Loaded m' := by
  cases h
  case payment h =>
    cases h
    case loadCash     => rfl
    case addCash hpc  =>
      simp only [Loaded, Payment.Loaded, hpc] at hl
      simp [Loaded, Payment.Loaded, hl]
    all_goals trivial
  all_goals trivial

theorem Task.Loaded.of_not_insideMutex {t : Task} (h : t.insideMutex = false) : t.Loaded m := by
  cases t
  case payment p =>
    cases hpc : p.pc <;> simp_all [insideMutex, Payment.insideMutex, Loaded, Payment.Loaded]
  all_goals trivial

theorem Task.Loaded.congr {t : Task} (h : t.Loaded m) (hc : m'.cash = m.cash) : t.Loaded m' := by
  cases t
  case payment p =>
    simp only [Loaded, Payment.Loaded] at h ⊢
    split <;> simp_all
  all_goals trivial

theorem Child.step_cash {c c' : Child} {i : Input} (h : c.step pid m i = some (m', c')) :
    CashStep m c.task m' c'.task := by
  cases Change.of_step h
  case run h => exact .of_move h
  case read h hm => exact .same (hm ▸ rfl) (by rw [hm, h.stored])
  case hangUp h hm => exact .same (hm ▸ rfl) (by rw [hm, h])
  case sigpipe hw h hm =>
    refine .same (hm ▸ rfl) ?_
    rw [hm, h, Task.stored_of_not_insideMutex <| Task.not_insideMutex_of_writing hw]
    cases c.task <;> rfl

-- Mutual exclusion turns the two halves of `*cash += fee` into one.
theorem registers : Pool.Annotation server (fun s _ => s.count Child.insideMutex ≤ 1)
    (fun _ => True) (fun m _ c => c.task.Loaded m) where
  spawn r _ := by cases r <;> trivial
  env _ h := by
    cases h
    exact ⟨trivial, fun hl => hl.congr rfl⟩
  step {s pid i s'} hs _ a := by
    refine ⟨trivial, ?_⟩
    cases Child.Change.of_step a.step
    case run h => exact (hs.procs a.get).move h
    case read h _ => exact h.loaded
    case hangUp h hm => exact h ▸ (hs.procs a.get).congr (hm ▸ rfl)
    case sigpipe h _ => exact .of_not_insideMutex <| h ▸ Task.kill_insideMutex _
  other {s pid i s'} hs hc a {j q} hj hq := by
    cases Child.step_cash a.step
    case same h _ => exact (hs.procs hq).congr h
    case store p _ _ ht hp _ _ =>
      apply Task.Loaded.of_not_insideMutex
      by_contra hi
      have hp : a.pre.insideMutex := by
        simp [Child.insideMutex, ht, Task.insideMutex, Payment.insideMutex, hp]
      exact hj <| Pool.exclusive hc hq a.get (Bool.not_eq_false _ ▸ hi) hp

theorem reachable_loaded (e : system.Run (.initial clock) s) :
    Pool.Annotated (fun _ => True) (fun m _ c => c.task.Loaded m) s := by
  apply registers.run ⟨trivial, by simp [State.initial]⟩ e
  refine Machine.Run.allSteps_reached (fun e => ?_) e
  have h := mutex_units e
  simp only [Pool.units] at h
  omega

-- `*cash` is what has been taken in, up to the wrap around of an `int`.
def State.Balanced (s : State) : Prop :=
  s.mem.cash = C.int (s.mem.income + s.total Child.stored)

theorem balanced_step {a : Action} (hs : s.Balanced)
    (hl : Pool.Annotated (fun _ => True) (fun m _ c => c.task.Loaded m) s)
    (h : system.step s a = some s') : s'.Balanced := by
  simp only [State.Balanced] at hs ⊢
  cases a
  case spawn r =>
    rw [Pool.total_spawn (fun r => by cases r <;> rfl) h]
    cases Pool.spawn_eq h
    exact hs
  case env d =>
    have ⟨_, hm, h⟩ := Pool.env_eq h
    cases hm
    exact h ▸ hs
  case act pid i =>
    have ⟨a⟩ := Pool.Acts.of_step h
    have ht : s'.total Child.stored + _ = s.total _ + _ := Pool.total_act a
    cases Child.step_cash a.step
    case same hc hi =>
      rw [hc, hs]
      simp only [Child.stored] at ht
      congr 1
      omega
    case store p q cash hp hpc hc hi =>
      have hv := hl.procs a.get
      simp only [Task.Loaded, hp, Payment.Loaded, hpc] at hv
      rw [hc, hv, hs, C.int_add_left]
      simp only [Child.stored] at ht
      congr 1
      omega

theorem reachable_balanced (e : system.Run (.initial clock) s) : s.Balanced :=
  have h₀ : (State.initial clock).Balanced := by
    simp [State.Balanced, Memory.income, Pool.total, State.initial, Memory.initial, C.int]
  e.invariant h₀
    (fun _ _ _ hs hl h => balanced_step hs hl h) (Machine.Run.allSteps_reached reachable_loaded e)

-- Whichever way the requests take through the sections, `sem_mutex` and the processes inside of
-- them make up one unit. While nobody is inside, `*cash` holds all fees, if their sum fits.
theorem mutex_units_and_cash (e : system.Run (.initial clock) s) :
    s.units Memory.semMutex Child.insideMutex = 1 ∧
      (s.mem.semMutex = 1 → -2 ^ 31 ≤ s.mem.income → s.mem.income < 2 ^ 31 →
        s.mem.cash = s.mem.income) := by
  have hu := mutex_units e
  refine ⟨hu, fun hm h₁ h₂ => ?_⟩
  have hz : s.count Child.insideMutex = 0 := by
    simp only [Pool.units] at hu
    omega
  have ht : s.total Child.stored = 0 := by
    apply Pool.total_eq_zero
    intro c hc
    obtain ⟨pid, hp⟩ := List.getElem?_of_mem hc
    exact Task.stored_of_not_insideMutex <| Pool.not_inside_of_count_eq_zero hz hp
  rw [reachable_balanced e, ht, add_zero, C.int_eq h₁ h₂]

-- A fuel car pays the fee for its first half hour.
def promptPayment : List Action :=
  [.spawn <| .entry 1 .a] ++ statements 0 6 ++
  [.spawn <| .pay .a] ++ statements 1 4 ++
  [.act 1 <| .reply <| C.ascii "20\n"] ++ statements 1 8

theorem cash_of_prompt_payment : ∃ (s : State) (_ : system.Run (.initial 0) s),
    s.mem.semMutex = 1 ∧ s.mem.income = 20 ∧ s.mem.cash = 20 := by
  have ⟨s, e, _, hs⟩ := Machine.Run.exists_of_exec system (fun _ _ => true) (.initial 0)
    promptPayment (fun s => s.mem.semMutex = 1 ∧ s.mem.income = 20) (by decide +kernel)
  have ⟨hm, hi⟩ := of_decide_eq_true hs
  have hc := (mutex_units_and_cash e).right hm (by rw [hi]; decide) (by rw [hi]; decide)
  exact ⟨s, e, hm, hi, hc.trans hi⟩

-- An electric car that stays for 68 years pays twice. The fee of 2147483670$ wraps to a negative
-- one.
def overlongStay : List Action :=
  [.spawn <| .entry 1 .e] ++ statements 0 6 ++ [.env 2147483640] ++
  [.spawn <| .pay .e] ++ statements 1 4 ++
  [.act 1 <| .reply <| C.ascii "-2147483626\n"] ++ statements 1 8 ++
  [.spawn <| .pay .e] ++ statements 2 4 ++
  [.act 2 <| .reply <| C.ascii "-2147483626\n"] ++ statements 2 8

theorem cash_wraps : ¬ ∀ (clock : ℤ) (s : State) (e : system.Run (.initial clock) s),
    e.AllSteps (fun s a => s.killed? a = none) →
      s.units Memory.semMutex Child.insideMutex = 1 ∧
        (s.mem.semMutex = 1 → s.mem.income < 2 ^ 31 → s.mem.cash = s.mem.income) := by
  intro h
  have ⟨s, e, he, hs⟩ := Machine.Run.exists_of_exec system (fun s a => (s.killed? a).isNone)
    (.initial 0) overlongStay
    (fun s => s.mem.semMutex = 1 ∧ s.mem.income = -4294967252 ∧ s.mem.cash = 44) (by decide +kernel)
  simp only [Option.isNone_iff_eq_none, decide_eq_true_eq] at he hs
  have := (h 0 s e he).right
  simp_all

end Parking
