import EmbeddedOS.FinalProject.Server

namespace Parking

-- The ways through the statements of `entry`: what must be the case in front of a statement, what
-- it makes of the memory and where the child goes on.
inductive Entry.Move (pid : ℕ) (m : Memory) (e : Entry) : Memory → Entry → Prop
  | alreadyParked (i : Slot) (hpc : e.pc = .scan) (hl : m.lookup e.plate = some i) :
    Move pid m e m (e.goto <| .reply .alreadyParked)
  | notParked (hpc : e.pc = .scan) (hl : m.lookup e.plate = none) :
    Move pid m e m (e.goto .acquire)
  | acquire (hpc : e.pc = .acquire) (hs : 0 < m.semMutex) :
    Move pid m e { m with semMutex := m.semMutex - 1 } (e.goto .allocate)
  | allocate (pos : Slot) (hpc : e.pc = .allocate) (hf : m.freeSlot e.plate e.entryNum = some pos) :
    Move pid m e (m.park pid e.plate pos) (e.goto <| .release pos)
  | noSpace (hpc : e.pc = .allocate) (hf : m.freeSlot e.plate e.entryNum = none) :
    Move pid m e m (e.goto <| .release none)
  | release (pos : Slot) (hpc : e.pc = .release pos) :
    Move pid m e m.unlockMutex (e.goto <| .light pos)
  | releaseNone (hpc : e.pc = .release none) :
    Move pid m e m.unlockMutex (e.goto <| .reply .noSpace)
  | light (pos : Slot) (hpc : e.pc = .light pos) :
    Move pid m e { m with pins := Function.update m.pins (gpio pos) 0 }
      (e.goto <| .reply .entrySuccess)
  | reply (r : Reply) (hpc : e.pc = .reply r) :
    Move pid m e (m.note <| .replied pid r) (e.goto .exited)

inductive Exitpark.Move (pid : ℕ) (m : Memory) (x : Exitpark) : Memory → Exitpark → Prop
  | found (i : Slot) (hpc : x.pc = .scan) (hl : m.lookup x.plate = some i) :
    Move pid m x m (x.goto .rescan)
  | noCar (hpc : x.pc = .scan) (hl : m.lookup x.plate = none) :
    Move pid m x m (x.goto <| .reply .noCar)
  | rescan (hpc : x.pc = .rescan) :
    Move pid m x m (x.goto <| .checkPaid (m.scanIndex x.plate))
  | fault (i : ℤ) (hpc : x.pc = .checkPaid i) (hi : slot? i = none) :
    Move pid m x m (x.goto .faulted)
  | unpaid (i : ℤ) (pos : Slot) (hpc : x.pc = .checkPaid i) (hi : slot? i = some pos)
    (hp : (m.car pos).payT = 0) : Move pid m x m (x.goto <| .reply .payFirst)
  | paid (i : ℤ) (pos : Slot) (hpc : x.pc = .checkPaid i) (hi : slot? i = some pos)
    (hp : (m.car pos).payT ≠ 0) : Move pid m x m (x.goto <| .checkTime pos)
  | late (pos : Slot) (hpc : x.pc = .checkTime pos) (ht : m.clock - (m.car pos).payT > 25) :
    Move pid m x m (x.goto <| .acquireLate pos)
  | inTime (pos : Slot) (hpc : x.pc = .checkTime pos) (ht : ¬m.clock - (m.car pos).payT > 25) :
    Move pid m x m (x.goto <| .acquireFree pos)
  | acquireLate (pos : Slot) (hpc : x.pc = .acquireLate pos) (hs : 0 < m.semMutex) :
    Move pid m x { m with semMutex := m.semMutex - 1 } (x.goto <| .expire pos)
  | expire (pos : Slot) (hpc : x.pc = .expire pos) :
    Move pid m x (m.expire pid x.plate pos) (x.goto <| .releaseLate pos)
  | releaseLate (pos : Slot) (hpc : x.pc = .releaseLate pos) :
    Move pid m x m.unlockMutex (x.goto <| .reply .repay)
  | acquireFree (pos : Slot) (hpc : x.pc = .acquireFree pos) (hs : 0 < m.semMutex) :
    Move pid m x { m with semMutex := m.semMutex - 1 } (x.goto <| .free pos)
  | clear (pos : Slot) (hpc : x.pc = .free pos) (hz : zone? (m.car pos).elec = none) :
    Move pid m x (m.clearCar pid x.plate pos) (x.goto .faultedInside)
  | free (pos : Slot) (z : Zone) (hpc : x.pc = .free pos) (hz : zone? (m.car pos).elec = some z) :
    Move pid m x (m.leave pid x.plate pos z) (x.goto <| .releaseFree pos)
  | releaseFree (pos : Slot) (hpc : x.pc = .releaseFree pos) :
    Move pid m x m.unlockMutex (x.goto <| .success pos)
  | success (pos : Slot) (hpc : x.pc = .success pos) :
    Move pid m x (m.note <| .replied pid .exitSuccess) (x.goto <| .light pos)
  | light (pos : Slot) (hpc : x.pc = .light pos) :
    Move pid m x { m with pins := Function.update m.pins (gpio pos) 1 } (x.goto .exited)
  | reply (r : Reply) (hpc : x.pc = .reply r) :
    Move pid m x (m.note <| .replied pid r) (x.goto .exited)

inductive Payment.Move (pid : ℕ) (m : Memory) (p : Payment) : Memory → Payment → Prop
  | acquireCounting (hpc : p.pc = .acquireCounting) (hs : 0 < m.semCounting) :
    Move pid m p { m with semCounting := m.semCounting - 1 } (p.goto .scan)
  | found (i : Slot) (hpc : p.pc = .scan) (hl : m.lookup p.plate = some i) :
    Move pid m p m (p.goto <| .quote i)
  | notFound (hpc : p.pc = .scan) (hl : m.lookup p.plate = none) :
    Move pid m p m (p.goto .writeNotFound)
  | quote (i : Slot) (hpc : p.pc = .quote i) :
    Move pid m p
      ((m.setPay i m.clock).note <|
        .quoted pid p.plate i (m.car i).licencePlate m.clock (quoteFor m i).fee)
      (p.goto <| .writeFee (quoteFor m i))
  | writeFee (q : Quote) (hpc : p.pc = .writeFee q) :
    Move pid m p (m.note <| .replied pid <| .fee q.fee) (p.goto <| .await q)
  | writeWrong (q : Quote) (hpc : p.pc = .writeWrong q) :
    Move pid m p (m.note <| .replied pid .wrongAmount) (p.goto <| .writeFeeAgain q)
  | writeFeeAgain (q : Quote) (hpc : p.pc = .writeFeeAgain q) :
    Move pid m p (m.note <| .replied pid <| .feeAgain q.fee)
      (p.goto <| .await { q with buf := C.sprintf q.buf (Reply.feeAgain q.fee).text })
  | acquireMark (q : Quote) (hpc : p.pc = .acquireMark q) (hs : 0 < m.semMutex) :
    Move pid m p { m with semMutex := m.semMutex - 1 } (p.goto <| .mark q)
  | mark (q : Quote) (hpc : p.pc = .mark q) :
    Move pid m p
      ((m.setPay q.slot q.t).note <| .marked pid p.plate q.slot (m.car q.slot).licencePlate)
      (p.goto <| .releaseMark q)
  | releaseMark (q : Quote) (hpc : p.pc = .releaseMark q) :
    Move pid m p m.unlockMutex (p.goto <| .acquireCash q)
  | acquireCash (q : Quote) (hpc : p.pc = .acquireCash q) (hs : 0 < m.semMutex) :
    Move pid m p { m with semMutex := m.semMutex - 1 } (p.goto <| .loadCash q)
  | loadCash (q : Quote) (hpc : p.pc = .loadCash q) :
    Move pid m p m (p.goto <| .addCash q m.cash)
  | addCash (q : Quote) (cash : ℤ) (hpc : p.pc = .addCash q cash) :
    Move pid m p m (p.goto <| .storeCash q <| C.int (cash + q.fee))
  | storeCash (q : Quote) (cash : ℤ) (hpc : p.pc = .storeCash q cash) :
    Move pid m p { m with cash } (p.goto <| .releaseCash q)
  | releaseCash (q : Quote) (hpc : p.pc = .releaseCash q) :
    Move pid m p (m.unlockMutex.note <| .credited pid p.plate q.slot q.fee)
      (p.goto <| .writeSuccess q)
  | writeSuccess (q : Quote) (hpc : p.pc = .writeSuccess q) :
    Move pid m p
      (m.note <| .replied pid <|
        .paymentSuccess (m.car q.slot).licencePlate (m.car q.slot).pos q.tpass q.fee)
      (p.goto .releaseCounting)
  | writeNotFound (hpc : p.pc = .writeNotFound) :
    Move pid m p (m.note <| .replied pid .cannotFind) (p.goto .releaseCounting)
  | releaseCounting (hpc : p.pc = .releaseCounting) :
    Move pid m p m.unlockCounting (p.goto .exited)

inductive Task.Move (pid : ℕ) (m : Memory) : Task → Memory → Task → Prop
  | entry {e m' e'} (h : e.Move pid m m' e') : Move pid m (.entry e) m' (.entry e')
  | exitpark {x m' x'} (h : x.Move pid m m' x') : Move pid m (.exitpark x) m' (.exitpark x')
  | payment {p m' p'} (h : p.Move pid m m' p') : Move pid m (.payment p) m' (.payment p')

-- What becomes of a payment that waits for the client and gets these bytes.
inductive Task.Read (bytes : List UInt8) : Task → Task → Prop
  | fault (p : Payment) (q : Quote) (hpc : p.pc = .await q)
    (hb : C.behindNumber (q.read bytes).buf = []) :
    Read bytes (.payment p) (.payment <| p.goto .faulted)
  | accept (p : Payment) (q : Quote) (hpc : p.pc = .await q)
    (hb : C.behindNumber (q.read bytes).buf ≠ [])
    (hf : C.atoi (q.read bytes).buf = (q.read bytes).fee) :
    Read bytes (.payment p) (.payment <| p.goto <| .acquireMark <| q.read bytes)
  | reject (p : Payment) (q : Quote) (hpc : p.pc = .await q)
    (hb : C.behindNumber (q.read bytes).buf ≠ [])
    (hf : C.atoi (q.read bytes).buf ≠ (q.read bytes).fee) :
    Read bytes (.payment p) (.payment <| p.goto <| .writeWrong <| q.read bytes)

-- What an input does to a child. Only its own statements change the memory.
inductive Child.Change (pid : ℕ) (m : Memory) (c : Child) (i : Input) (m' : Memory) (c' : Child) :
    Prop
  | run (hi : i = .run) (h : c.task.Move pid m m' c'.task)
  | read (hi : i ≠ .run ∧ i ≠ .sigpipe) (bytes : List UInt8) (h : c.task.Read bytes c'.task)
    (hm : m' = m)
  | hangUp (hi : i = .hangUp) (h : c'.task = c.task) (hm : m' = m)
  | sigpipe (hi : i = .sigpipe) (hw : c.task.writing) (h : c'.task = c.task.kill) (hm : m' = m)

variable {m m' : Memory} {pid : ℕ} {t t' : Task}

-- A process that gets past `P` has taken a unit and gone on to its next statement.
theorem Memory.lockMutex_map {α : Type*} {x y : α} (h : m.lockMutex.map (·, x) = some (m', y)) :
    0 < m.semMutex ∧ m' = { m with semMutex := m.semMutex - 1 } ∧ y = x := by
  simp only [lockMutex] at h
  split at h <;> simp_all

theorem Memory.lockCounting_map {α : Type*} {x y : α}
    (h : m.lockCounting.map (·, x) = some (m', y)) :
    0 < m.semCounting ∧ m' = { m with semCounting := m.semCounting - 1 } ∧ y = x := by
  simp only [lockCounting] at h
  split at h <;> simp_all

-- The driver accepts all messages of the server.
theorem Memory.light_eq (m : Memory) (pos : Slot) (value : UInt8) :
    m.light pos value = some { m with pins := Function.update m.pins (gpio pos) value.toNat } := by
  simp [Memory.light, etxWrite_eq]

theorem Entry.Move.of_step {e e' : Entry} (h : e.step pid m = some (m', e')) :
    e.Move pid m m' e' := by
  cases hpc : e.pc <;> simp only [step, hpc, Memory.light_eq] at h
  case acquire =>
    obtain ⟨hs, rfl, rfl⟩ := Memory.lockMutex_map h
    exact .acquire hpc hs
  case light pos => cases h; exact .light pos hpc
  case reply r   => cases h; exact .reply r hpc
  case scan | allocate | release =>
    split at h <;> cases h
    all_goals constructor <;> assumption
  all_goals contradiction

theorem Exitpark.Move.of_step {x x' : Exitpark} (h : x.step pid m = some (m', x')) :
    x.Move pid m m' x' := by
  cases hpc : x.pc <;> simp only [step, hpc, Memory.light_eq] at h
  case acquireLate pos =>
    obtain ⟨hs, rfl, rfl⟩ := Memory.lockMutex_map h
    exact .acquireLate pos hpc hs
  case acquireFree pos =>
    obtain ⟨hs, rfl, rfl⟩ := Memory.lockMutex_map h
    exact .acquireFree pos hpc hs
  case light pos => cases h; exact .light pos hpc
  case reply r   => cases h; exact .reply r hpc
  all_goals
    repeat' split at h
    all_goals
      cases h
      try constructor <;> assumption

theorem Payment.Move.of_step {p p' : Payment} (h : p.step pid m = some (m', p')) :
    p.Move pid m m' p' := by
  cases hpc : p.pc <;> simp only [step, hpc] at h
  case acquireMark q =>
    obtain ⟨hs, rfl, rfl⟩ := Memory.lockMutex_map h
    exact .acquireMark q hpc hs
  case acquireCash q =>
    obtain ⟨hs, rfl, rfl⟩ := Memory.lockMutex_map h
    exact .acquireCash q hpc hs
  case acquireCounting =>
    obtain ⟨hs, rfl, rfl⟩ := Memory.lockCounting_map h
    exact .acquireCounting hpc hs
  case quote i => cases h; exact .quote i hpc
  case scan =>
    split at h <;> cases h
    all_goals constructor <;> assumption
  all_goals
    cases h
    try constructor <;> assumption

theorem Task.Move.of_step (h : t.step pid m = some (m', t')) : t.Move pid m m' t' := by
  cases t
  all_goals
    obtain ⟨⟨_, _⟩, hs, h⟩ := Option.map_eq_some_iff.mp h
    cases h
  case entry    => exact .entry <| .of_step hs
  case exitpark => exact .exitpark <| .of_step hs
  case payment  => exact .payment <| .of_step hs

theorem Task.Read.of_read {bytes : List UInt8} (h : t.read bytes = some t') : t.Read bytes t' := by
  cases t
  case payment p =>
    obtain ⟨_, hp, rfl⟩ := Option.map_eq_some_iff.mp h
    cases hpc : p.pc <;> simp only [Payment.read, hpc] at hp
    case await q =>
      cases hp
      simp only [Payment.compare]
      split
      case isTrue hb => exact .fault p q hpc hb
      split
      case isTrue hb hf  => exact .accept p q hpc hb hf
      case isFalse hb hf => exact .reject p q hpc hb hf
    all_goals contradiction
  all_goals contradiction

theorem Child.Change.of_step {c c' : Child} {i : Input} (h : c.step pid m i = some (m', c')) :
    c.Change pid m i m' c' := by
  cases i <;> simp only [step] at h
  case run =>
    obtain ⟨_, ht, h⟩ := Option.map_eq_some_iff.mp h
    cases h
    exact .run rfl <| .of_step ht
  case reply | eof =>
    split at h
    case isTrue =>
      obtain ⟨_, ht, h⟩ := Option.map_eq_some_iff.mp h
      cases h
      exact .read ⟨nofun, nofun⟩ _ (.of_read ht) rfl
    case isFalse => contradiction
  case hangUp =>
    cases h
    exact .hangUp rfl rfl rfl
  case sigpipe =>
    split at h
    case isTrue hw =>
      cases h
      exact .sigpipe rfl hw.right rfl rfl
    case isFalse => contradiction

end Parking
