import EmbeddedOS.FinalProject.Theorems.Occupancy
import EmbeddedOS.FinalProject.Theorems.Records

namespace Parking

variable {m m' m'' : Memory} {pid : ℕ} {plate : Plate} {clock : ℤ} {s s' : State} {e : Event}

-- Nothing has happened to the car park, but time has passed.
structure Memory.Rests (m m' : Memory) : Prop where
  car       : m'.car = m.car
  parkSpace : m'.parkSpace = m.parkSpace
  spaceLeft : m'.spaceLeft = m.spaceLeft
  cash      : m'.cash = m.cash
  clock     : m.clock ≤ m'.clock
  log       : records m'.log = records m.log

namespace Memory

@[refl]
theorem Rests.refl (m : Memory) : m.Rests m :=
  ⟨rfl, rfl, rfl, rfl, le_rfl, rfl⟩

theorem Rests.trans (h₁ : m.Rests m') (h₂ : m'.Rests m'') : m.Rests m'' where
  car       := h₂.car.trans h₁.car
  parkSpace := h₂.parkSpace.trans h₁.parkSpace
  spaceLeft := h₂.spaceLeft.trans h₁.spaceLeft
  cash      := h₂.cash.trans h₁.cash
  clock     := h₁.clock.trans h₂.clock
  log       := h₂.log.trans h₁.log

theorem Rests.note (h : m.Rests m') (he : e.counts = false) : m.Rests (m'.note e) :=
  h.trans ⟨rfl, rfl, rfl, rfl, le_rfl, List.filter_cons_of_neg <| by simp [he]⟩

theorem Rests.note_congr (h : m.Rests m') : (m.note e).Rests (m'.note e) :=
  ⟨h.car, h.parkSpace, h.spaceLeft, h.cash, h.clock, records_congr h.log⟩

theorem Rests.lookup (h : m.Rests m') (plate : Plate) : m'.lookup plate = m.lookup plate := by
  rw [Memory.lookup, h.car, Memory.lookup]

theorem Rests.freeSlot (h : m.Rests m') (plate : Plate) (n : ℤ) :
    m'.freeSlot plate n = m.freeSlot plate n := by
  rw [Memory.freeSlot, h.parkSpace, Memory.freeSlot]

variable (m)

@[simps -fullyApplied]
def atTime (t : ℤ) : Memory :=
  { m with clock := t }

-- What becomes of the memory when a payment quotes a fee at a time, and when it is accepted.
def quoted (pid : ℕ) (plate : Plate) (i : Slot) (t : ℤ) : Memory :=
  ((m.atTime t).setPay i t).note <|
    .quoted pid plate i (m.car i).licencePlate t (feeOf (m.car i).elec (t - (m.car i).entryT))

def paid (pid : ℕ) (plate : Plate) (i : Slot) (t : ℤ) : Memory :=
  let fee := feeOf (m.car i).elec (t - (m.car i).entryT)
  { m.quoted pid plate i t with cash := C.int (m.cash + fee) }.note <| .credited pid plate i fee

end Memory

-- What can come of a request that is handled alone.
inductive Outcome (pid : ℕ) (m m' : Memory) : Request → Prop
  | rests {r : Request} (h : m.Rests m') : Outcome pid m m' r
  | entered (n : ℤ) (plate : Plate) (i : Slot) (t : ℤ) (hl : m.lookup plate = none)
    (hf : m.freeSlot plate n = some i) (ht : m.clock ≤ t)
    (h : ((m.atTime t).park pid plate i).Rests m') : Outcome pid m m' (.entry n plate)
  | quoted (plate : Plate) (i : Slot) (t : ℤ) (hl : m.lookup plate = some i) (ht : m.clock ≤ t)
    (h : (m.quoted pid plate i t).Rests m') : Outcome pid m m' (.pay plate)
  | paid (plate : Plate) (i : Slot) (t : ℤ) (hl : m.lookup plate = some i) (ht : m.clock ≤ t)
    (h : (m.paid pid plate i t).Rests m') : Outcome pid m m' (.pay plate)
  | expired (plate : Plate) (i : Slot) (t : ℤ) (hl : m.lookup plate = some i) (ht : m.clock ≤ t)
    (hp : (m.car i).payT ≠ 0) (hx : t - (m.car i).payT > 25)
    (h : ((m.atTime t).expire pid plate i).Rests m') : Outcome pid m m' (.exit plate)
  | left (plate : Plate) (i : Slot) (z : Zone) (t : ℤ) (hl : m.lookup plate = some i)
    (ht : m.clock ≤ t) (hp : (m.car i).payT ≠ 0) (hx : ¬t - (m.car i).payT > 25)
    (hz : zone? (m.car i).elec = some z)
    (h : ((m.atTime t).leave pid plate i z).Rests m') : Outcome pid m m' (.exit plate)
  | cleared (plate : Plate) (i : Slot) (hl : m.lookup plate = some i)
    (hz : zone? (m.car i).elec = none) : Outcome pid m m' (.exit plate)

namespace Outcome

theorem rest {r : Request} (h : Outcome pid m m' r) (hr : m'.Rests m'') :
    Outcome pid m m'' r := by
  cases h
  case rests h                           => exact .rests <| h.trans hr
  case entered n plate i t hl hf ht h    => exact .entered n plate i t hl hf ht <| h.trans hr
  case quoted plate i t hl ht h          => exact .quoted plate i t hl ht <| h.trans hr
  case paid plate i t hl ht h            => exact .paid plate i t hl ht <| h.trans hr
  case expired plate i t hl ht hp hx h   => exact .expired plate i t hl ht hp hx <| h.trans hr
  case left plate i z t hl ht hp hx hz h => exact .left plate i z t hl ht hp hx hz <| h.trans hr
  case cleared plate i hl hz             => exact .cleared plate i hl hz

end Outcome

theorem Payment.quoteFor_fee (m : Memory) (i : Slot) :
    (quoteFor m i).fee = feeOf (m.car i).elec (m.clock - (m.car i).entryT) :=
  rfl

namespace Memory.Rests

variable {i : Slot} {t : ℤ}

-- What a step makes of a memory that has rested, it makes of the memory as it was.
theorem park (h : m.Rests m') :
    ((m.atTime m'.clock).park pid plate i).Rests (m'.park pid plate i) where
  car       := by simp [h.car]
  parkSpace := by simp [h.parkSpace]
  spaceLeft := by simp [h.spaceLeft]
  cash      := h.cash
  clock     := le_rfl
  log       := records_congr h.log

theorem quoted (h : m.Rests m') :
    (m.quoted pid plate i m'.clock).Rests
      ((m'.setPay i m'.clock).note <|
        .quoted pid plate i (m'.car i).licencePlate m'.clock (Payment.quoteFor m' i).fee) where
  car       := by simp [Memory.quoted, h.car]
  parkSpace := h.parkSpace
  spaceLeft := h.spaceLeft
  cash      := h.cash
  clock     := le_rfl
  log       := by simpa [Memory.quoted, Payment.quoteFor_fee, h.car] using records_congr h.log

theorem mark {q : Quote} (h : (m.quoted pid plate q.slot t).Rests m') :
    (m.quoted pid plate q.slot t).Rests (m'.setPay q.slot t) where
  car       := by simp [Memory.quoted, h.car]
  parkSpace := h.parkSpace
  spaceLeft := h.spaceLeft
  cash      := h.cash
  clock     := h.clock
  log       := h.log

theorem expire (h : m.Rests m') (ht : t ≤ m'.clock) :
    ((m.atTime t).expire pid plate i).Rests (m'.expire pid plate i) where
  car       := by simp [h.car]
  parkSpace := h.parkSpace
  spaceLeft := h.spaceLeft
  cash      := h.cash
  clock     := ht
  log       := by simpa [h.car] using records_congr h.log

theorem leave {z : Zone} (h : m.Rests m') (ht : t ≤ m'.clock) :
    ((m.atTime t).leave pid plate i z).Rests (m'.leave pid plate i z) where
  car       := by simp [h.car]
  parkSpace := by simp [h.parkSpace]
  spaceLeft := by simp [h.spaceLeft]
  cash      := h.cash
  clock     := ht
  log       := by simpa [h.car] using records_congr h.log

end Memory.Rests

-- What a child that is handled alone knows at its next statement about the memory that it has been
-- started with.
def Entry.Since (pid : ℕ) (m m' : Memory) (e : Entry) : Prop :=
  match e.pc with
  | .scan                => m.Rests m'
  | .acquire | .allocate => m.Rests m' ∧ m.lookup e.plate = none
  | _                    => Outcome pid m m' (.entry e.entryNum e.plate)

-- The time at which an exit has compared `pay_t` with the clock.
def Exitpark.Checked (m m' : Memory) (x : Exitpark) (i : Slot) (late : Bool) : Prop :=
  ∃ t, m.clock ≤ t ∧ t ≤ m'.clock ∧ decide (t - (m.car i).payT > 25) = late ∧
    m.lookup x.plate = some i ∧ (m.car i).payT ≠ 0

def Exitpark.Since (pid : ℕ) (m m' : Memory) (x : Exitpark) : Prop :=
  match x.pc with
  | .scan                          => m.Rests m'
  | .rescan                        => m.Rests m' ∧ m.lookup x.plate ≠ none
  | .checkPaid pos                 =>
    m.Rests m' ∧ m.lookup x.plate ≠ none ∧ slot? pos = m.lookup x.plate
  | .checkTime pos                 =>
    m.Rests m' ∧ m.lookup x.plate = some pos ∧ (m.car pos).payT ≠ 0
  | .acquireLate pos | .expire pos => m.Rests m' ∧ x.Checked m m' pos true
  | .acquireFree pos | .free pos   => m.Rests m' ∧ x.Checked m m' pos false
  | _                              => Outcome pid m m' (.exit x.plate)

-- What a payment that has quoted its fee knows about the quote.
structure Payment.Quotes (m : Memory) (p : Payment) (q : Quote) : Prop where
  lookup : m.lookup p.plate = some q.slot
  clock  : m.clock ≤ q.t
  fee    : q.fee = feeOf (m.car q.slot).elec (q.t - (m.car q.slot).entryT)

def Payment.Since (pid : ℕ) (m m' : Memory) (p : Payment) : Prop :=
  match p.pc with
  | .acquireCounting | .scan => m.Rests m'
  | .quote i => m.Rests m' ∧ m.lookup p.plate = some i
  | .writeFee q | .await q | .writeWrong q | .writeFeeAgain q | .acquireMark q | .mark q
  | .releaseMark q | .acquireCash q | .loadCash q =>
    (m.quoted pid p.plate q.slot q.t).Rests m' ∧ p.Quotes m q
  | .addCash q cash =>
    (m.quoted pid p.plate q.slot q.t).Rests m' ∧ p.Quotes m q ∧ cash = m.cash
  | .storeCash q cash =>
    (m.quoted pid p.plate q.slot q.t).Rests m' ∧ p.Quotes m q ∧ cash = C.int (m.cash + q.fee)
  | .releaseCash q =>
    { m.quoted pid p.plate q.slot q.t with cash := C.int (m.cash + q.fee) }.Rests m' ∧ p.Quotes m q
  | _ => Outcome pid m m' (.pay p.plate)

theorem Entry.Since.move {m₀ : Memory} {e e' : Entry} (hs : e.Since pid m₀ m)
    (h : e.Move pid m m' e') : e'.Since pid m₀ m' := by
  cases h
  case alreadyParked i hpc hl =>
    simp only [Since, hpc] at hs
    exact .rests hs
  case notParked hpc hl =>
    simp only [Since, hpc] at hs
    exact ⟨hs, hs.lookup _ ▸ hl⟩
  case acquire hpc _ =>
    simp only [Since, hpc] at hs
    exact ⟨hs.left.trans ⟨rfl, rfl, rfl, rfl, le_rfl, rfl⟩, hs.right⟩
  case allocate pos hpc hf =>
    simp only [Since, hpc] at hs
    exact .entered _ _ pos _ hs.right (hs.left.freeSlot .. ▸ hf) hs.left.clock hs.left.park
  case noSpace hpc hf =>
    simp only [Since, hpc] at hs
    exact .rests hs.left
  case release hpc | releaseNone hpc | light hpc =>
    simp only [Since, hpc] at hs
    exact hs.rest ⟨rfl, rfl, rfl, rfl, le_rfl, rfl⟩
  case reply hpc =>
    simp only [Since, hpc] at hs
    exact hs.rest <| .note (.refl _) rfl

theorem Exitpark.Since.move {m₀ : Memory} {x x' : Exitpark} (hs : x.Since pid m₀ m)
    (h : x.Move pid m m' x') : x'.Since pid m₀ m' := by
  cases h
  case found i hpc hl =>
    simp only [Since, hpc] at hs
    exact ⟨hs, by simp [← hs.lookup, hl]⟩
  case noCar hpc hl =>
    simp only [Since, hpc] at hs
    exact .rests hs
  case rescan hpc =>
    simp only [Since, hpc] at hs
    exact ⟨hs.left, hs.right, by rw [Memory.slot?_scanIndex, hs.left.lookup]; rfl⟩
  case fault i hpc hi =>
    simp only [Since, hpc] at hs
    exact absurd (hs.right.right.symm.trans hi) hs.right.left
  case unpaid hpc _ _ =>
    simp only [Since, hpc] at hs
    exact .rests hs.left
  case paid i pos hpc hi hp =>
    simp only [Since, hpc] at hs
    exact ⟨hs.left, hs.right.right.symm.trans hi, hs.left.car ▸ hp⟩
  case late pos hpc ht =>
    simp only [Since, hpc] at hs
    exact ⟨hs.left, m.clock, hs.left.clock, le_rfl, by simpa [hs.left.car] using ht, hs.right⟩
  case inTime pos hpc ht =>
    simp only [Since, hpc] at hs
    exact ⟨hs.left, m.clock, hs.left.clock, le_rfl, by simpa [hs.left.car] using ht, hs.right⟩
  case acquireLate hpc _ | acquireFree hpc _ =>
    simp only [Since, hpc] at hs
    exact ⟨hs.left.trans ⟨rfl, rfl, rfl, rfl, le_rfl, rfl⟩, hs.right⟩
  case expire pos hpc =>
    simp only [Since, hpc] at hs
    obtain ⟨hr, t, h₁, h₂, hx, hl, hp⟩ := hs
    exact .expired _ pos t hl h₁ hp (of_decide_eq_true hx) (hr.expire h₂)
  case clear pos hpc hz =>
    simp only [Since, hpc] at hs
    obtain ⟨hr, t, h₁, h₂, hx, hl, hp⟩ := hs
    exact .cleared _ pos hl (hr.car ▸ hz)
  case free pos z hpc hz =>
    simp only [Since, hpc] at hs
    obtain ⟨hr, t, h₁, h₂, hx, hl, hp⟩ := hs
    exact .left _ pos z t hl h₁ hp (of_decide_eq_false hx) (hr.car ▸ hz) (hr.leave h₂)
  case releaseLate hpc | releaseFree hpc | light hpc =>
    simp only [Since, hpc] at hs
    exact hs.rest ⟨rfl, rfl, rfl, rfl, le_rfl, rfl⟩
  case success hpc | reply hpc =>
    simp only [Since, hpc] at hs
    exact hs.rest <| .note (.refl _) rfl

theorem Payment.Since.move {m₀ : Memory} {p p' : Payment} (hs : p.Since pid m₀ m)
    (h : p.Move pid m m' p') : p'.Since pid m₀ m' := by
  cases h
  case acquireCounting hpc _ =>
    simp only [Since, hpc] at hs
    exact hs.trans ⟨rfl, rfl, rfl, rfl, le_rfl, rfl⟩
  case found i hpc hl =>
    simp only [Since, hpc] at hs
    exact ⟨hs, hs.lookup _ ▸ hl⟩
  case notFound hpc _ =>
    simp only [Since, hpc] at hs
    exact .rests hs
  case quote i hpc =>
    simp only [Since, hpc] at hs
    exact ⟨hs.left.quoted, hs.right, hs.left.clock, by simp [quoteFor_fee, hs.left.car]⟩
  case writeFee hpc | writeWrong hpc | writeFeeAgain hpc =>
    simp only [Since, hpc] at hs
    exact ⟨hs.left.note rfl, hs.right.lookup, hs.right.clock, hs.right.fee⟩
  case acquireMark hpc _ | releaseMark hpc | acquireCash hpc _ =>
    simp only [Since, hpc] at hs
    exact ⟨hs.left.trans ⟨rfl, rfl, rfl, rfl, le_rfl, rfl⟩, hs.right.lookup, hs.right.clock,
      hs.right.fee⟩
  case mark hpc =>
    simp only [Since, hpc] at hs
    exact ⟨hs.left.mark.note rfl, hs.right.lookup, hs.right.clock, hs.right.fee⟩
  case loadCash hpc =>
    simp only [Since, hpc] at hs
    exact ⟨hs.left, ⟨hs.right.lookup, hs.right.clock, hs.right.fee⟩, hs.left.cash⟩
  case addCash hpc =>
    simp only [Since, hpc] at hs
    obtain ⟨hr, hq, rfl⟩ := hs
    exact ⟨hr, ⟨hq.lookup, hq.clock, hq.fee⟩, rfl⟩
  case storeCash hpc =>
    simp only [Since, hpc] at hs
    obtain ⟨hr, hq, rfl⟩ := hs
    exact ⟨⟨hr.car, hr.parkSpace, hr.spaceLeft, rfl, hr.clock, hr.log⟩, hq.lookup, hq.clock, hq.fee⟩
  case releaseCash q hpc =>
    simp only [Since, hpc] at hs
    obtain ⟨hr, hq⟩ := hs
    refine .paid _ q.slot q.t hq.lookup hq.clock ?_
    rw [Memory.paid, ← hq.fee]
    exact hr.note_congr.trans ⟨rfl, rfl, rfl, rfl, le_rfl, rfl⟩
  case writeSuccess hpc | writeNotFound hpc =>
    simp only [Since, hpc] at hs
    exact hs.rest <| .note (.refl _) rfl
  case releaseCounting hpc =>
    simp only [Since, hpc] at hs
    exact hs.rest ⟨rfl, rfl, rfl, rfl, le_rfl, rfl⟩

namespace Task

def Since (pid : ℕ) (m m' : Memory) : Task → Prop
  | entry e    => e.Since pid m m'
  | exitpark x => x.Since pid m m'
  | payment p  => p.Since pid m m'

def request : Task → Request
  | entry e    => .entry e.entryNum e.plate
  | exitpark x => .exit x.plate
  | payment p  => .pay p.plate

variable {m₀ : Memory} {t t' : Task}

theorem Move.request (h : t.Move pid m m' t') : t'.request = t.request := by
  cases h
  case entry h    => cases h <;> rfl
  case exitpark h => cases h <;> rfl
  case payment h  => cases h <;> rfl

theorem Since.move (hs : t.Since pid m₀ m) (h : t.Move pid m m' t') : t'.Since pid m₀ m' := by
  cases h
  case entry h    => exact Entry.Since.move hs h
  case exitpark h => exact Exitpark.Since.move hs h
  case payment h  => exact Payment.Since.move hs h

theorem Since.read {bytes : List UInt8} (hs : t.Since pid m₀ m) (h : t.Read bytes t') :
    t'.Since pid m₀ m ∧ t'.request = t.request := by
  cases h
  all_goals simp only [Since, Payment.Since, ‹Payment.pc _ = _›] at hs
  case fault q _ _ => exact ⟨.quoted _ q.slot q.t hs.right.lookup hs.right.clock hs.left, rfl⟩
  all_goals exact ⟨⟨hs.left, hs.right.lookup, hs.right.clock, hs.right.fee⟩, rfl⟩

-- A child that is ended at a write has come to an outcome.
theorem Since.kill (hs : t.Since pid m₀ m) (hw : t.writing) :
    t.kill.Since pid m₀ m ∧ t.kill.request = t.request := by
  refine ⟨?_, by cases t <;> rfl⟩
  cases t
  case entry e =>
    cases hpc : e.pc <;> simp only [writing, Entry.writing, hpc, Bool.false_eq_true] at hw
    simp only [Since, Entry.Since, hpc] at hs
    exact hs
  case exitpark x =>
    cases hpc : x.pc <;> simp only [writing, Exitpark.writing, hpc, Bool.false_eq_true] at hw
    all_goals
      simp only [Since, Exitpark.Since, hpc] at hs
      exact hs
  case payment p =>
    cases hpc : p.pc <;> simp only [writing, Payment.writing, hpc, Bool.false_eq_true] at hw
    all_goals simp only [Since, Payment.Since, hpc] at hs
    case writeFee q | writeWrong q | writeFeeAgain q =>
      exact .quoted _ q.slot q.t hs.right.lookup hs.right.clock hs.left
    all_goals exact hs

theorem Since.rest (hs : t.Since pid m₀ m) (hr : m.Rests m') : t.Since pid m₀ m' := by
  cases t
  case entry e =>
    simp only [Since, Entry.Since] at hs ⊢
    split at hs
    case h_1       => exact hs.trans hr
    case h_2 | h_3 => exact ⟨hs.left.trans hr, hs.right⟩
    case h_4       => exact hs.rest hr
  case exitpark x =>
    simp only [Since, Exitpark.Since] at hs ⊢
    split at hs
    case h_1             => exact hs.trans hr
    case h_2 | h_3 | h_4 => exact ⟨hs.left.trans hr, hs.right⟩
    case h_9             => exact hs.rest hr
    all_goals
      obtain ⟨h, t, h₁, h₂, hx⟩ := hs
      exact ⟨h.trans hr, t, h₁, h₂.trans hr.clock, hx⟩
  case payment p =>
    simp only [Since, Payment.Since] at hs ⊢
    split at hs
    case h_1 | h_2 => exact hs.trans hr
    case h_16      => exact hs.rest hr
    all_goals exact ⟨hs.left.trans hr, hs.right⟩

theorem Since.outcome (hs : t.Since pid m₀ m) (h : t.ended) : Outcome pid m₀ m t.request := by
  cases t
  case entry e =>
    cases hpc : e.pc <;> simp only [ended, Entry.ended, hpc, Bool.false_eq_true] at h
    all_goals
      simp only [Since, Entry.Since, hpc] at hs
      exact hs
  case exitpark x =>
    cases hpc : x.pc <;> simp only [ended, Exitpark.ended, hpc, Bool.false_eq_true] at h
    all_goals
      simp only [Since, Exitpark.Since, hpc] at hs
      exact hs
  case payment p =>
    cases hpc : p.pc <;> simp only [ended, Payment.ended, hpc, Bool.false_eq_true] at h
    all_goals
      simp only [Since, Payment.Since, hpc] at hs
      exact hs

end Task

theorem fork_since (m : Memory) (r : Request) :
    (fork r).task.Since pid m m ∧ (fork r).task.request = r := by
  cases r <;> exact ⟨.refl m, rfl⟩

-- The rule for a request that is handled alone: its child always knows what it has made of the
-- memory.
theorem since_of_alone {m₀ : Memory} {r : Request} {a : Memory × Child}
    (e : (Pool.alone server pid).Run (m₀, fork r) a) :
    a.snd.task.Since pid m₀ a.fst ∧ a.snd.task.request = r := by
  apply e.invariant (I := fun a => a.snd.task.Since pid m₀ a.fst ∧ a.snd.task.request = r)
    (C := fun _ _ => True)
  case h₀ => exact fork_since m₀ r
  case hc => exact e.allSteps_true
  case hs =>
    intro a x b hs _ h
    cases x
    case inr d =>
      cases h
      exact ⟨hs.left.rest ⟨rfl, rfl, rfl, rfl, by simp, rfl⟩, hs.right⟩
    case inl x =>
      cases Child.Change.of_step h
      case run _ h        => exact ⟨hs.left.move h, h.request.trans hs.right⟩
      case read h hm      => exact hm ▸ (hs.left.read h).imp id (·.trans hs.right)
      case hangUp h hm    => exact hm ▸ h ▸ hs
      case sigpipe hw h hm =>
        have ⟨hk, hr⟩ := hs.left.kill hw
        exact hm ▸ h ▸ ⟨hk, hr.trans hs.right⟩

theorem outcome_of_visit {r : Request} {xs : List (Input ⊕ ℕ)}
    (h : visits.step s (r, xs) = some s') : Outcome s.procs.length s.mem s'.mem r := by
  have ⟨h⟩ := Pool.Handles.of_step h
  have ⟨hs, hr⟩ := since_of_alone h.run
  exact hr ▸ hs.outcome h.ended

end Parking
