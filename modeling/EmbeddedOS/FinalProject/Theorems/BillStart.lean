import EmbeddedOS.FinalProject.Theorems.Billing

namespace Parking

variable {m m' : Memory} {pid : ℕ} {p : Plate} {i : Slot} {clock start t : ℤ} {s : State} {l : Lot}

theorem feeOf_le {elec tpass : ℤ} (he : elec ≠ 0 ↔ p.electric) (ht : 0 ≤ tpass) :
    feeOf elec tpass ≤ p.rate * (tpass / 30 + 1) := by
  have hn : 0 ≤ tpass / 30 := by omega
  rw [feeOf, Int.tdiv_eq_ediv_of_nonneg ht, Plate.rate]
  simp only [he]
  split <;> exact C.int_le (by omega)

-- The kind of a parked car can be read off the field `elec`.
theorem Memory.Holds.elec_iff (h : m.Holds l) (hp : (m.car i).licencePlate = p.chars) :
    (m.car i).elec ≠ 0 ↔ p.electric := by
  have hs := h.slot i
  cases hi : l.plate i <;> simp only [hi, Car.Shows] at hs
  case none => exact absurd (hp.symm.trans hs.right) p.ne_nil
  case some q =>
    obtain ⟨-, hq, -, he⟩ := hs
    cases Plate.eq_of_chars <| hq.symm.trans hp
    rw [he, ← l.zone hi, Plate.zone]
    cases p.electric <;> simp

theorem payments_paid {stored : List UInt8} {fee : ℤ} {log : List Event} :
    payments p (.credited pid p i fee :: .quoted pid p i stored t fee :: log) =
      { time := t, fee } :: payments p log := by
  simp [payments, quoteTime?]

-- What the history and the clock say about the bill of a car that is parked.
structure Memory.Stay (start : ℤ) (m : Memory) (p : Plate) (i : Slot) : Prop where
  entered : ∃ t, entered? p m.log = some t ∧ start ≤ t ∧ t ≤ (m.car i).entryT
  elapsed : (m.car i).entryT ≤ m.clock
  real    : entered? p m.log = some (m.car i).entryT ∨
    ∃ b ∈ payments p m.log, b.time = (m.car i).entryT
  settled : Settled p m.log → (∃ b ∈ payments p m.log, b.time = (m.car i).payT) ∧
    (m.car i).entryT ≤ (m.car i).payT ∧ (m.car i).payT ≤ m.clock

def Memory.Stays (start : ℤ) (m : Memory) (p : Plate) : Prop :=
  ∀ i, (m.car i).licencePlate = p.chars → m.Stay start p i

namespace Memory.Stay

theorem frame (h : m.Stay start p i) (hc : m'.car i = m.car i) (ht : m.clock ≤ m'.clock)
    (hb : SameBill p m'.log m.log) : m'.Stay start p i where
  entered    := by rw [hb.entered?, hc]; exact h.entered
  elapsed    := by rw [hc]; exact h.elapsed.trans ht
  real       := by rw [hb.entered?, hb.payments, hc]; exact h.real
  settled hs := by
    have ⟨h₁, h₂, h₃⟩ := h.settled (hb.settled.mp hs)
    rw [hb.payments, hc]
    exact ⟨h₁, h₂, h₃.trans ht⟩

theorem park (ht : start ≤ t) : ((m.atTime t).park pid p i).Stay start p i := by
  have he : entered? p ((m.atTime t).park pid p i).log = some t := if_pos rfl
  constructor
  case entered => exact ⟨t, he, ht, by simp⟩
  case elapsed => simp
  case real    => exact .inl <| by simpa using he
  case settled => simp [Settled, Event.bills, Event.pays]

theorem quoted (h : m.Stay start p i) (ht : m.clock ≤ t) : (m.quoted pid p i t).Stay start p i where
  entered := by simpa [Memory.quoted, entered?] using h.entered
  elapsed := by simpa [Memory.quoted] using h.elapsed.trans ht
  real    := by simpa [Memory.quoted, entered?, payments] using h.real
  settled := by simp [Memory.quoted, Settled, Event.bills, Event.pays]

theorem paid (h : m.Stay start p i) (ht : m.clock ≤ t) : (m.paid pid p i t).Stay start p i := by
  have hc : (m.paid pid p i t).car i = { m.car i with payT := t } := by
    simp [Memory.paid, Memory.quoted]
  have hp : payments p (m.paid pid p i t).log = { time := t, fee := _ } :: payments p m.log :=
    payments_paid
  constructor
  case entered => simpa [hc, Memory.paid, Memory.quoted, entered?] using h.entered
  case elapsed => rw [hc]; exact h.elapsed.trans ht
  case real =>
    rw [hc, hp]
    exact h.real.imp (by simp [Memory.paid, Memory.quoted, entered?])
      (.imp fun _ hb => hb.imp_left <| List.mem_cons_of_mem _)
  case settled =>
    rw [hc, hp]
    exact fun _ => ⟨⟨_, List.mem_cons_self, rfl⟩, h.elapsed.trans ht, le_rfl⟩

-- A late exit makes the time of the last quote the new start of the bill.
theorem expire (h : m.Stay start p i) (hs : Settled p m.log) (ht : m.clock ≤ t) :
    ((m.atTime t).expire pid p i).Stay start p i := by
  obtain ⟨hb, h₁, h₂⟩ := h.settled hs
  constructor
  case entered =>
    have ⟨t, ht, hs, he⟩ := h.entered
    exact ⟨t, by simpa [entered?] using ht, hs, by simpa using he.trans h₁⟩
  case elapsed => simpa using h₂.trans ht
  case real    => exact .inr <| by simpa [payments] using hb
  case settled => simp [Settled, Event.bills, Event.pays]

end Memory.Stay

theorem stays (start : ℤ) :
    BillingRule start Settled (fun _ _ _ => True) (Memory.Stays start) where
  records p log := settled_records
  frame h hb ht hc i hi := (h i <| hc i hi ▸ hi).frame (hc i hi) ht hb
  initial p i hi := absurd hi.symm p.ne_nil
  park ho ht j hj := (ho j).mp hj ▸ .park ht
  quoted ho ht h j hj := by
    rw [(ho.quoted j).mp hj]
    exact (h _ <| (ho _).mpr rfl).quoted ht
  paid ho _ _ ht h j hj := by
    rw [(ho.paid j).mp hj]
    exact (h _ <| (ho _).mpr rfl).paid ht
  expire ho hs _ ht h j hj := by
    rw [(ho.expire j).mp hj]
    exact (h _ <| (ho _).mpr rfl).expire hs ht

-- The bill of a parked car starts at a moment of its stay, and it never asks for more than the
-- time since its entry.
structure Memory.BillsStay (start : ℤ) (m : Memory) (p : Plate) (i : Slot) : Prop where
  real      : entered? p m.log = some (m.car i).entryT ∨
    ∃ b ∈ payments p m.log, b.time = (m.car i).entryT
  notMarker : 0 ≤ start → (m.car i).entryT ≠ -1
  fee       : ∃ t, entered? p m.log = some t ∧ ∀ now, m.clock ≤ now →
    feeOf (m.car i).elec (now - (m.car i).entryT) ≤ p.rate * ((now - t) / 30 + 1)

theorem Memory.Stay.billsStay (h : m.Stay start p i) (hl : m.Holds l)
    (hp : (m.car i).licencePlate = p.chars) : m.BillsStay start p i := by
  have ⟨t, ht, hs, he⟩ := h.entered
  refine ⟨h.real, fun h₀ => by omega, t, ht, fun now hn => ?_⟩
  have hq := h.elapsed
  calc feeOf (m.car i).elec (now - (m.car i).entryT)
    _ ≤ p.rate * ((now - (m.car i).entryT) / 30 + 1) := feeOf_le (hl.elec_iff hp) (by omega)
    _ ≤ p.rate * ((now - t) / 30 + 1) := by unfold Plate.rate; split <;> omega

-- As long as 'Please Repay' is only answered to cars whose bill has been paid, all bills start at
-- the entry or at the quote of a payment.
theorem billsStay_of_repaidSettled (e : visits.Run (.initial clock) s)
    (hr : RepaidSettled s.mem.log) (i : Slot) (p : Plate)
    (hp : (s.mem.car i).licencePlate = p.chars) : s.mem.BillsStay clock p i :=
  have ⟨_, hl⟩ := (visits_represents e).mem
  have hs : s.mem.Stays clock p :=
    (stays clock).run e (e.allSteps_true.mono fun _ _ _ _ _ _ _ => trivial) hr p
  (hs i hp).billsStay hl hp

-- A car pays after a minute, and overstays its time to leave.
def overtimeVisit : List (Request × List (Input ⊕ ℕ)) :=
  [(.entry 1 .a, statementsOf 6), (.pay .a, .inr 60 :: paying "60\n"),
    (.exit .a, .inr 26 :: statementsOf 8)]

set_option maxRecDepth 4000 in
theorem billsStay_of_overtime_visit : ∃ (s : State) (_ : visits.Run (.initial 1700000000) s),
    (s.mem.car 8).entryT = 1700000060 ∧ s.mem.BillsStay 1700000000 .a 8 := by
  have ⟨s, e, _, hs⟩ := Machine.Run.exists_of_exec visits (fun _ _ => true) (.initial 1700000000)
    overtimeVisit
    (fun s => (s.mem.car 8).entryT = 1700000060 ∧ (s.mem.car 8).licencePlate = [65] ∧
      RepaidSettled s.mem.log)
    (by decide)
  have ⟨ht, hp, hr⟩ := of_decide_eq_true hs
  exact ⟨s, e, ht, billsStay_of_repaidSettled e hr 8 .a hp⟩

-- The car tries to leave once more without having paid again.
set_option maxRecDepth 4000 in
theorem billsStay_broken : ¬ ∀ (clock : ℤ) (s : State) (_ : visits.Run (.initial clock) s)
    (i : Slot) (p : Plate), (s.mem.car i).licencePlate = p.chars → s.mem.BillsStay clock p i := by
  intro h
  have ⟨s, e, _, hs⟩ := Machine.Run.exists_of_exec visits (fun _ _ => true) (.initial 1700000000)
    (overtimeVisit ++ [(.exit .a, statementsOf 8)])
    (fun s => (s.mem.car 8).entryT = -1 ∧ (s.mem.car 8).licencePlate = [65]) (by decide)
  have ⟨ht, hp⟩ := of_decide_eq_true hs
  exact (h _ s e 8 .a hp).notMarker (by decide) ht

end Parking
