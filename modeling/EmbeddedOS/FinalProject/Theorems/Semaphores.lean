import EmbeddedOS.FinalProject.Theorems.LotStep

namespace Parking

variable {m m' : Memory} {pid : ℕ} {clock : ℤ} {s s' : State}

-- Each statement of a request takes `sem_mutex` exactly if it enters the section.
theorem Entry.Move.mutex {e e' : Entry} (h : e.Move pid m m' e') :
    m'.semMutex + e'.insideMutex.toNat = m.semMutex + e.insideMutex.toNat := by
  cases h
  case acquire hpc hs => simpa [insideMutex, hpc] using Nat.sub_add_cancel hs
  all_goals simp [insideMutex, *]

theorem Exitpark.Move.mutex {x x' : Exitpark} (h : x.Move pid m m' x') :
    m'.semMutex + x'.insideMutex.toNat = m.semMutex + x.insideMutex.toNat := by
  cases h
  case acquireLate hpc hs | acquireFree hpc hs =>
    simpa [insideMutex, hpc] using Nat.sub_add_cancel hs
  all_goals simp [insideMutex, *]

theorem Payment.Move.mutex {p p' : Payment} (h : p.Move pid m m' p') :
    m'.semMutex + p'.insideMutex.toNat = m.semMutex + p.insideMutex.toNat := by
  cases h
  case acquireMark hpc hs | acquireCash hpc hs =>
    simpa [insideMutex, hpc] using Nat.sub_add_cancel hs
  all_goals simp [insideMutex, *]

theorem Task.Move.mutex {t t' : Task} (h : t.Move pid m m' t') :
    m'.semMutex + t'.insideMutex.toNat = m.semMutex + t.insideMutex.toNat := by
  cases h
  case entry h    => exact h.mutex
  case exitpark h => exact h.mutex
  case payment h  => exact h.mutex

-- No client is read or written inside of a `sem_mutex` section.
theorem Task.Read.insideMutex {t t' : Task} {bytes : List UInt8} (h : t.Read bytes t') :
    t'.insideMutex = t.insideMutex := by
  cases h <;> simp [Task.insideMutex, Payment.insideMutex, *]

theorem Task.not_insideMutex_of_writing {t : Task} (h : t.writing) : t.insideMutex = false := by
  cases t
  case entry e =>
    cases hpc : e.pc <;> simp_all [writing, Entry.writing, insideMutex, Entry.insideMutex]
  case exitpark x =>
    cases hpc : x.pc <;> simp_all [writing, Exitpark.writing, insideMutex, Exitpark.insideMutex]
  case payment p =>
    cases hpc : p.pc <;> simp_all [writing, Payment.writing, insideMutex, Payment.insideMutex]

theorem Task.kill_insideMutex (t : Task) : t.kill.insideMutex = false := by
  cases t <;> rfl

theorem mutex_disciplined :
    Pool.Disciplined server (fun _ _ => True) Memory.semMutex Child.insideMutex where
  spawn r := by cases r <;> rfl
  env h := by cases h; rfl
  step {s pid i s'} _ a := by
    simp only [Child.insideMutex]
    cases Child.Change.of_step a.step
    case run h           => exact h.mutex
    case read h hm       => rw [hm, h.insideMutex]
    case hangUp h hm     => rw [hm, h]
    case sigpipe hw h hm => rw [hm, h, Task.kill_insideMutex, Task.not_insideMutex_of_writing hw]

-- The value of `sem_mutex` and the number of processes inside of its sections always add up to 1.
theorem mutex_units (e : system.Run (.initial clock) s) :
    s.units Memory.semMutex Child.insideMutex = 1 :=
  mutex_disciplined.run e e.allSteps_true

-- The statements of a payment take `sem_counting` exactly if they enter the counting section, those
-- of the other requests leave it alone.
theorem Payment.Move.counting {p p' : Payment} (h : p.Move pid m m' p') :
    m'.semCounting + p'.insideCounting.toNat = m.semCounting + p.insideCounting.toNat := by
  cases h
  case acquireCounting hpc hs => simpa [insideCounting, hpc] using Nat.sub_add_cancel hs
  all_goals simp [insideCounting, *]

theorem Entry.Move.semCounting {e e' : Entry} (h : e.Move pid m m' e') :
    m'.semCounting = m.semCounting := by
  cases h <;> rfl

theorem Exitpark.Move.semCounting {x x' : Exitpark} (h : x.Move pid m m' x') :
    m'.semCounting = m.semCounting := by
  cases h <;> rfl

theorem Task.Move.counting {t t' : Task} (h : t.Move pid m m' t') :
    m'.semCounting + t'.insideCounting.toNat = m.semCounting + t.insideCounting.toNat := by
  cases h
  case entry h    => rw [h.semCounting]; rfl
  case exitpark h => rw [h.semCounting]; rfl
  case payment h  => exact h.counting

theorem Task.Read.insideCounting {t t' : Task} {bytes : List UInt8} (h : t.Read bytes t') :
    t'.insideCounting = t.insideCounting := by
  cases h <;> simp [Task.insideCounting, Payment.insideCounting, *]

theorem Task.kill_insideCounting (t : Task) : t.kill.insideCounting = false := by
  cases t <;> rfl

-- The one way to lose a unit of `sem_counting` is a child that dies inside of the section.
theorem Child.step_counting {c c' : Child} {i : Input} (h : c.step pid m i = some (m', c')) :
    m'.semCounting + c'.insideCounting.toNat = m.semCounting + c.insideCounting.toNat ↔
      (i = .sigpipe → c.insideCounting = false) := by
  simp only [insideCounting]
  cases Change.of_step h
  case run hi h =>
    exact iff_of_true h.counting (by simp [hi])
  case read hi _ h hm =>
    exact iff_of_true (by rw [hm, h.insideCounting]) (absurd · hi.right)
  case hangUp hi h hm =>
    exact iff_of_true (by rw [hm, h]) (by simp [hi])
  case sigpipe hi _ h hm =>
    rw [hm, h, Task.kill_insideCounting]
    cases c.task.insideCounting <;> simp [hi]

-- A child dies outside of the counting section only.
def KeepsStations (s : State) (a : Action) : Prop :=
  ∀ c ∈ s.killed? a, c.insideCounting = false

theorem keepsStations_act_iff {i : Input} {c : Child} (h : s.procs[pid]? = some c) :
    KeepsStations s (.act pid i) ↔ (i = .sigpipe → c.insideCounting = false) := by
  cases i <;> simp [KeepsStations, State.killed?, h]

theorem units_counting_step {a : Action} (h : system.step s a = some s') :
    s'.units Memory.semCounting Child.insideCounting =
      s.units Memory.semCounting Child.insideCounting ↔ KeepsStations s a := by
  cases a
  case spawn r =>
    refine iff_of_true (Pool.units_spawn (fun r => ?_) h) nofun
    cases r <;> rfl
  case act pid i =>
    have ⟨a⟩ := Pool.Acts.of_step h
    have : s'.units Memory.semCounting Child.insideCounting + _ = s.units _ _ + _ :=
      Pool.units_act a
    rw [keepsStations_act_iff a.get, ← Child.step_counting a.step]
    omega
  case env d =>
    have ⟨_, hm, hs⟩ := Pool.env_eq h
    cases hm
    subst hs
    exact iff_of_true rfl nofun

-- The pay stations are all there in every state of a run exactly if no step of the run kills a
-- child inside of the counting section.
theorem units_counting_iff (e : system.Run (.initial clock) s) :
    e.AllStates (fun s => s.units Memory.semCounting Child.insideCounting = 2) ↔
      e.AllSteps KeepsStations := by
  apply e.allStates_iff_allSteps (fun _ => True)
  case hi => trivial
  case h₀ => rfl
  case hI => intros; trivial
  case hP =>
    intro s a s' _ hs h
    rw [← units_counting_step h, hs]

-- A car is parked, and its driver closes the connection instead of paying the fee.
def abandonedPayment : List Action :=
  [.spawn <| .entry 1 .a] ++ statements 0 6 ++
  [.spawn <| .pay .a] ++ statements 1 4 ++
  [.act 1 .hangUp, .act 1 .eof, .act 1 .sigpipe]

theorem units_counting_lost : ¬ ∀ (clock : ℤ) (s : State) (e : system.Run (.initial clock) s),
    e.AllStates (fun s => s.units Memory.semCounting Child.insideCounting = 2) := by
  intro h
  have ⟨s, e, _, hs⟩ := Machine.Run.exists_of_exec system (fun _ _ => true) (.initial 0)
    abandonedPayment (fun s => s.units Memory.semCounting Child.insideCounting = 1)
    (by decide +kernel)
  have := (h 0 s e).last
  simp_all

end Parking
