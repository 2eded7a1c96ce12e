import EmbeddedOS.FinalProject.Visits
import EmbeddedOS.FinalProject.Theorems.Occupancy

namespace Parking

variable {m m' : Memory} {pid k : ℕ} {p : Plate} {i : Slot} {z : Zone} {n : ℤ}

-- The ways through the statements are all that there are.
theorem Entry.Move.step {e e' : Entry} (h : e.Move pid m m' e') : e.step pid m = some (m', e') := by
  cases h
  case alreadyParked hpc hl => simp only [Entry.step, hpc, hl]
  case notParked hpc hl     => simp only [Entry.step, hpc, hl]
  case acquire hpc hs       => simp only [Entry.step, hpc, Memory.lockMutex, if_pos hs]; rfl
  case allocate hpc hf      => simp only [Entry.step, hpc, hf]
  case noSpace hpc hf       => simp only [Entry.step, hpc, hf]
  case light hpc            => simp [Entry.step, hpc, Memory.light_eq]
  all_goals simp only [Entry.step, *]

theorem Exitpark.Move.step {x x' : Exitpark} (h : x.Move pid m m' x') :
    x.step pid m = some (m', x') := by
  cases h
  case found hpc hl          => simp only [Exitpark.step, hpc, hl]
  case noCar hpc hl          => simp only [Exitpark.step, hpc, hl]
  case acquireLate hpc hs    => simp only [Exitpark.step, hpc, Memory.lockMutex, if_pos hs]; rfl
  case acquireFree hpc hs    => simp only [Exitpark.step, hpc, Memory.lockMutex, if_pos hs]; rfl
  case clear hpc hz          => simp only [Exitpark.step, hpc, hz]
  case free hpc hz           => simp only [Exitpark.step, hpc, hz]
  case light hpc             => simp [Exitpark.step, hpc, Memory.light_eq]
  all_goals simp only [Exitpark.step, *, if_true, if_false]

theorem Payment.Move.step {y y' : Payment} (h : y.Move pid m m' y') :
    y.step pid m = some (m', y') := by
  cases h
  case acquireCounting hpc hs =>
    simp only [Payment.step, hpc, Memory.lockCounting, if_pos hs]; rfl
  case found hpc hl       => simp only [Payment.step, hpc, hl]
  case notFound hpc hl    => simp only [Payment.step, hpc, hl]
  case quote hpc          => simp only [Payment.step, hpc, quoteFor_t]
  case acquireMark hpc hs => simp only [Payment.step, hpc, Memory.lockMutex, if_pos hs]; rfl
  case acquireCash hpc hs => simp only [Payment.step, hpc, Memory.lockMutex, if_pos hs]; rfl
  all_goals simp only [Payment.step, *]

-- The children that execute these statements of an entry, an exit and a payment next.
def entryAt (n : ℤ) (p : Plate) (pc : Entry.Pc) : Child where
  task   := .entry { entryNum := n, plate := p, pc }
  hungUp := false

def exitAt (p : Plate) (pc : Exitpark.Pc) : Child where
  task   := .exitpark { plate := p, pc }
  hungUp := false

def payAt (p : Plate) (pc : Payment.Pc) : Child where
  task   := .payment { plate := p, pc }
  hungUp := false

-- A child that is alone goes from one statement to the next.
theorem settle_entry {pc pc' : Entry.Pc}
    (h : Entry.Move pid m { entryNum := n, plate := p, pc } m'
      { entryNum := n, plate := p, pc := pc' }) :
    Pool.settle server pid .run (k + 1) m (entryAt n p pc) =
      Pool.settle server pid .run k m' (entryAt n p pc') :=
  Pool.settle_succ <| by simp [server, Child.step, Task.step, entryAt, h.step]

theorem settle_entry_exited :
    Pool.settle server pid .run k m (entryAt n p .exited) = (m, entryAt n p .exited) :=
  Pool.settle_of_stuck rfl

theorem settle_exit {pc pc' : Exitpark.Pc}
    (h : Exitpark.Move pid m { plate := p, pc } m' { plate := p, pc := pc' }) :
    Pool.settle server pid .run (k + 1) m (exitAt p pc) =
      Pool.settle server pid .run k m' (exitAt p pc') :=
  Pool.settle_succ <| by simp [server, Child.step, Task.step, exitAt, h.step]

theorem settle_exit_exited :
    Pool.settle server pid .run k m (exitAt p .exited) = (m, exitAt p .exited) :=
  Pool.settle_of_stuck rfl

theorem settle_pay {pc pc' : Payment.Pc}
    (h : Payment.Move pid m { plate := p, pc } m' { plate := p, pc := pc' }) :
    Pool.settle server pid .run (k + 1) m (payAt p pc) =
      Pool.settle server pid .run k m' (payAt p pc') :=
  Pool.settle_succ <| by simp [server, Child.step, Task.step, payAt, h.step]

theorem settle_pay_await {q : Quote} :
    Pool.settle server pid .run k m (payAt p (.await q)) = (m, payAt p (.await q)) :=
  Pool.settle_of_stuck rfl

namespace Memory

-- The answer is the reply that the child has sent last.
theorem answer?_eq {r : Request} {c : Child} {a : Reply} {log : List Event}
    (h : m.handle pid r = (m', c)) (hc : c.task.exited) (hl : m'.log = .replied pid a :: log) :
    m.answer? pid r = some a := by
  simp only [answer?, h, hc, hl, if_true, lastReply]

-- A section that finds the semaphore free leaves it as it was.
theorem unlock_lock (h : 0 < m.semMutex) :
    { m with semMutex := m.semMutex - 1 }.unlockMutex = m := by
  simp [unlockMutex, Nat.sub_add_cancel h]

theorem unlock_park_lock (h : 0 < m.semMutex) :
    ({ m with semMutex := m.semMutex - 1 }.park pid p i).unlockMutex = m.park pid p i := by
  simp [unlockMutex, park, Nat.sub_add_cancel h]

theorem unlock_expire_lock (h : 0 < m.semMutex) :
    ({ m with semMutex := m.semMutex - 1 }.expire pid p i).unlockMutex = m.expire pid p i := by
  simp [unlockMutex, expire, setCar, note, Nat.sub_add_cancel h]

theorem unlock_leave_lock (h : 0 < m.semMutex) :
    ({ m with semMutex := m.semMutex - 1 }.leave pid p i z).unlockMutex = m.leave pid p i z := by
  simp [unlockMutex, leave, Nat.sub_add_cancel h]

-- The three ways of an entry that is handled alone.
theorem handle_entry_parked (hl : m.lookup p = some i) :
    m.handle pid (.entry n p) =
      (m.note <| .replied pid .alreadyParked, entryAt n p .exited) := by
  change Pool.settle server pid .run 9 m (entryAt n p .scan) = _
  rw [settle_entry (.alreadyParked i rfl hl), settle_entry (.reply _ rfl), settle_entry_exited]

theorem handle_entry_noSpace (hl : m.lookup p = none) (hs : 0 < m.semMutex)
    (hf : m.freeSlot p n = none) :
    m.handle pid (.entry n p) = (m.note <| .replied pid .noSpace, entryAt n p .exited) := by
  change Pool.settle server pid .run 9 m (entryAt n p .scan) = _
  rw [settle_entry (.notParked rfl hl), settle_entry (.acquire rfl hs),
    settle_entry (m := { m with semMutex := m.semMutex - 1 }) (.noSpace rfl hf),
    settle_entry (.releaseNone rfl), settle_entry (.reply _ rfl), settle_entry_exited,
    unlock_lock hs]

theorem handle_entry_park (hl : m.lookup p = none) (hs : 0 < m.semMutex)
    (hf : m.freeSlot p n = some i) :
    m.handle pid (.entry n p) =
      ({ m.park pid p i with pins := Function.update m.pins (gpio i) 0 }.note <|
        .replied pid .entrySuccess, entryAt n p .exited) := by
  change Pool.settle server pid .run 9 m (entryAt n p .scan) = _
  rw [settle_entry (.notParked rfl hl), settle_entry (.acquire rfl hs),
    settle_entry (m := { m with semMutex := m.semMutex - 1 }) (.allocate i rfl hf),
    settle_entry (.release i rfl), settle_entry (.light i rfl), settle_entry (.reply _ rfl),
    settle_entry_exited, unlock_park_lock hs]
  rfl

-- The ways of an exit that is handled alone, once it has found the car.
theorem handle_exit_unpaid (hl : m.lookup p = some i) (hp : (m.car i).payT = 0) :
    m.handle pid (.exit p) = (m.note <| .replied pid .payFirst, exitAt p .exited) := by
  have hi : slot? (m.scanIndex p) = some i := by rw [slot?_scanIndex, hl]
  change Pool.settle server pid .run 9 m (exitAt p .scan) = _
  rw [settle_exit (.found i rfl hl), settle_exit (.rescan rfl),
    settle_exit (.unpaid _ i rfl hi hp), settle_exit (.reply _ rfl), settle_exit_exited]

theorem handle_exit_late (hl : m.lookup p = some i) (hp : (m.car i).payT ≠ 0)
    (ht : m.clock - (m.car i).payT > 25) (hs : 0 < m.semMutex) :
    m.handle pid (.exit p) =
      ((m.expire pid p i).note <| .replied pid .repay, exitAt p .exited) := by
  have hi : slot? (m.scanIndex p) = some i := by rw [slot?_scanIndex, hl]
  change Pool.settle server pid .run 9 m (exitAt p .scan) = _
  rw [settle_exit (.found i rfl hl), settle_exit (.rescan rfl), settle_exit (.paid _ i rfl hi hp),
    settle_exit (.late i rfl ht), settle_exit (.acquireLate i rfl hs), settle_exit (.expire i rfl),
    settle_exit (.releaseLate i rfl), settle_exit (.reply _ rfl), settle_exit_exited,
    unlock_expire_lock hs]

theorem handle_exit_free (hl : m.lookup p = some i) (hp : (m.car i).payT ≠ 0)
    (ht : ¬m.clock - (m.car i).payT > 25) (hs : 0 < m.semMutex)
    (hz : zone? (m.car i).elec = some z) :
    m.handle pid (.exit p) =
      ({ (m.leave pid p i z).note <| .replied pid .exitSuccess with
        pins := Function.update m.pins (gpio i) 1 }, exitAt p .exited) := by
  have hi : slot? (m.scanIndex p) = some i := by rw [slot?_scanIndex, hl]
  change Pool.settle server pid .run 9 m (exitAt p .scan) = _
  rw [settle_exit (.found i rfl hl), settle_exit (.rescan rfl), settle_exit (.paid _ i rfl hi hp),
    settle_exit (.inTime i rfl ht), settle_exit (.acquireFree i rfl hs),
    settle_exit (m := { m with semMutex := m.semMutex - 1 }) (.free i z rfl hz),
    settle_exit (.releaseFree i rfl), settle_exit (.success i rfl), settle_exit (.light i rfl),
    settle_exit_exited, unlock_leave_lock hs]
  rfl

-- A payment that finds its car comes to wait for the first reply.
theorem handle_pay_found (hl : m.lookup p = some i) (hc : 0 < m.semCounting) :
    m.handle pid (.pay p) =
      ((({ m with semCounting := m.semCounting - 1 }.setPay i m.clock).note <|
          .quoted pid p i (m.car i).licencePlate m.clock (Payment.quoteFor m i).fee).note <|
        .replied pid <| .fee (Payment.quoteFor m i).fee,
        payAt p (.await <| Payment.quoteFor m i)) := by
  change Pool.settle server pid .run 9 m (payAt p .acquireCounting) = _
  rw [settle_pay (.acquireCounting rfl hc),
    settle_pay (m := { m with semCounting := m.semCounting - 1 }) (.found i rfl hl),
    settle_pay (.quote i rfl), settle_pay (.writeFee _ rfl), settle_pay_await]
  rfl

end Memory
end Parking
