import EmbeddedOS.FinalProject.Theorems.BillStart

namespace Parking

-- The plate that a request pays for.
def Request.pays? : Request → Option Plate
  | pay plate => some plate
  | entry .. | exit _ => none

-- What has been paid since the start of the bill has been quoted within the first half hour of it,
-- when another payment is made.
def BilledOnce (s : State) (a : Request × List (Input ⊕ ℕ)) : Prop :=
  ∀ p ∈ a.fst.pays?, ∀ i ∈ s.mem.lookup p, ∀ b ∈ paidSince p s.mem.log,
    b.time < (s.mem.car i).entryT + 30

instance (s : State) (a : Request × List (Input ⊕ ℕ)) : Decidable (BilledOnce s a) :=
  inferInstanceAs <| Decidable (∀ _ ∈ _, ∀ _ ∈ _, ∀ _ ∈ _, _)

def fees (ps : List Paid) : ℤ :=
  (ps.map (·.fee)).sum

theorem fees_cons (b : Paid) (ps : List Paid) : fees (b :: ps) = b.fee + fees ps :=
  List.sum_cons

-- The payments of a stay come to the time from the entry to the last quote, and to one more unit
-- for each payment.
def Fair (p : Plate) (log : List Event) : Prop :=
  ∀ t b ps, entered? p log = some t → payments p log = b :: ps →
    fees (b :: ps) ≤ p.rate * ((b.time - t) / 30 + (b :: ps).length)

-- The time of the last quote that has been paid.
def lastQuote (t : ℤ) (ps : List Paid) : ℤ :=
  (ps.head?.map (·.time)).getD t

variable {m m' : Memory} {pid : ℕ} {p : Plate} {i : Slot} {clock start t u : ℤ} {s : State}
variable {l : Lot}
variable {log : List Event}

-- The units that have been billed for lie in front of the last quote that has been paid.
structure Covered (p : Plate) (log : List Event) (clock t u : ℤ) : Prop where
  fees  : fees (payments p log) ≤ p.rate * (u + (payments p log).length)
  units : 30 * u ≤ lastQuote t (payments p log) - t
  last  : lastQuote t (payments p log) ≤ clock

-- They also lie in front of the start of the bill, until a payment has billed for more units.
structure Memory.Continues (m : Memory) (p : Plate) (i : Slot) (t u : ℤ) : Prop where
  elapsed : (m.car i).entryT ≤ m.clock
  start   : 30 * u ≤ (m.car i).entryT - t ∨
    ∃ b ∈ paidSince p m.log, (m.car i).entryT + 30 ≤ b.time
  repay   : ¬Unpaid p m.log → (m.car i).payT ≠ 0 →
    lastQuote t (payments p m.log) ≤ (m.car i).payT ∧ (m.car i).payT ≤ m.clock

def Memory.Covers (m : Memory) (p : Plate) : Prop :=
  ∀ t, entered? p m.log = some t → ∃ u, Covered p m.log m.clock t u ∧
    ∀ i, (m.car i).licencePlate = p.chars → m.Continues p i t u

theorem Covered.frame {log' : List Event} {clock' : ℤ} (h : Covered p log clock t u)
    (hb : SameBill p log' log) (ht : clock ≤ clock') : Covered p log' clock' t u where
  fees  := by rw [hb.payments]; exact h.fees
  units := by rw [hb.payments]; exact h.units
  last  := by rw [hb.payments]; exact h.last.trans ht

theorem Memory.Continues.frame (h : m.Continues p i t u) (hc : m'.car i = m.car i)
    (ht : m.clock ≤ m'.clock) (hb : SameBill p m'.log m.log) : m'.Continues p i t u where
  elapsed := by rw [hc]; exact h.elapsed.trans ht
  start   := by rw [hb.paidSince, hc]; exact h.start
  repay   := by
    rw [hb.unpaid, hb.payments, hc]
    exact fun hu hp => (h.repay hu hp).imp id (·.trans ht)

-- The time between two quotes of a bill that is paid has not been billed for before.
theorem covers (start : ℤ) : BillingRule start (fun p log => ¬Unpaid p log)
    (fun m p i => ∀ b ∈ paidSince p m.log, b.time < (m.car i).entryT + 30) Memory.Covers where
  records p log := not_congr unpaid_records
  frame h hb ht hc t he := by
    obtain ⟨u, hu, hi⟩ := h t <| hb.entered? ▸ he
    exact ⟨u, hu.frame hb ht, fun i hp => (hi i <| hc i hp ▸ hp).frame (hc i hp) ht hb⟩
  initial p t ht := by contradiction
  park {m pid p i t} ho _ t' he := by
    have he : t = t' := by simpa [entered?] using he
    subst he
    refine ⟨0, ⟨?_, ?_, ?_⟩, fun j hj => ?_⟩
    case refine_1 => simp [payments, fees]
    case refine_2 => simp [payments, lastQuote]
    case refine_3 => simp [payments, lastQuote]
    case refine_4 =>
      rw [(ho j).mp hj]
      exact ⟨by simp, .inl <| by simp, by simp⟩
  quoted {m pid p i t} ho ht h t' he := by
    obtain ⟨u, hu, hi⟩ := h t' he
    refine ⟨u, ⟨hu.fees, hu.units, hu.last.trans ht⟩, fun j hj => ?_⟩
    rw [(ho.quoted j).mp hj]
    have hc : (m.quoted pid p i t).car i = { m.car i with payT := t } := by simp [Memory.quoted]
    have hi := hi i <| (ho i).mpr rfl
    constructor
    case elapsed => rw [hc]; exact hi.elapsed.trans ht
    case start   => rw [hc]; exact hi.start
    case repay   => rw [hc]; exact fun _ _ => ⟨hu.last.trans ht, le_rfl⟩
  paid {m pid p i t l} ho hl hb ht h t' he := by
    obtain ⟨u, hu, hi⟩ := h t' he
    have hi := hi i <| (ho i).mpr rfl
    have hc : (m.paid pid p i t).car i = { m.car i with payT := t } := by
      simp [Memory.paid, Memory.quoted]
    have hp : payments p (m.paid pid p i t).log = { time := t, fee := _ } :: payments p m.log :=
      payments_paid
    have hs : paidSince p (m.paid pid p i t).log = { time := t, fee := _ } :: paidSince p m.log :=
      payments_paid
    have hf := feeOf_le (hl.elec_iff <| (ho i).mpr rfl) <| Int.sub_nonneg.mpr <| hi.elapsed.trans ht
    have h₀ : 30 * u ≤ (m.car i).entryT - t' := by
      refine hi.start.resolve_right ?_
      rintro ⟨b, hb', hn⟩
      exact absurd (hb b hb') (not_lt.mpr hn)
    refine ⟨u + (t - (m.car i).entryT) / 30, ⟨?_, ?_, ?_⟩, fun j hj => ?_⟩
    case refine_1 =>
      rw [hp, fees_cons]
      calc _
        _ ≤ p.rate * ((t - (m.car i).entryT) / 30 + 1) +
            p.rate * (u + (payments p m.log).length) := add_le_add hf hu.fees
        _ = _ := by push_cast [List.length_cons]; ring
    case refine_2 =>
      rw [hp]
      change 30 * (u + (t - (m.car i).entryT) / 30) ≤ t - t'
      omega
    case refine_3 => rw [hp]; exact le_rfl
    case refine_4 =>
      rw [(ho.paid j).mp hj]
      constructor
      case elapsed => rw [hc]; exact hi.elapsed.trans ht
      case start   =>
        rw [hc, hs]
        by_cases hn : t < (m.car i).entryT + 30
        case pos => exact .inl <| by simp only; omega
        case neg => exact .inr ⟨_, List.mem_cons_self, not_lt.mp hn⟩
      case repay   => rw [hc, hp]; exact fun _ _ => ⟨le_rfl, le_rfl⟩
  expire {m pid p i t} ho hr hn ht h t' he := by
    obtain ⟨u, hu, hi⟩ := h t' he
    obtain ⟨h₁, h₂⟩ := (hi i <| (ho i).mpr rfl).repay hr hn
    refine ⟨u, ⟨hu.fees, hu.units, hu.last.trans ht⟩, fun j hj => ?_⟩
    rw [(ho.expire j).mp hj]
    have hc : ((m.atTime t).expire pid p i).car i =
        { m.car i with entryT := (m.car i).payT, payT := -1 } := by simp
    constructor
    case elapsed => rw [hc]; exact h₂.trans ht
    case start   => rw [hc]; exact .inl <| hu.units.trans <| by simpa using h₁
    case repay   => simp [Unpaid, Event.pays, Event.repays]

-- As long as nothing that has been paid for is billed again, the fees of a stay come to the time
-- from the entry to the last quote.
theorem fair_of_billedOnce (e : visits.Run (.initial clock) s) (hr : RepaidInTurn s.mem.log)
    (hc : e.AllSteps BilledOnce) (p : Plate) : Fair p s.mem.log := by
  intro t b ps ht hp
  have hb : e.AllSteps fun s a => ∀ p, a.fst = .pay p → ∀ i ∈ s.mem.lookup p,
      ∀ b ∈ paidSince p s.mem.log, b.time < (s.mem.car i).entryT + 30 :=
    hc.mono fun s a hs p ha => hs p (by simp [ha, Request.pays?])
  have ⟨u, hu, _⟩ := (covers clock).run e hb hr p t ht
  have hf := hu.fees
  have hn := hu.units
  rw [hp] at hf hn
  change 30 * u ≤ b.time - t at hn
  calc fees (b :: ps)
    _ ≤ p.rate * (u + (b :: ps).length) := hf
    _ ≤ p.rate * ((b.time - t) / 30 + (b :: ps).length) := by
      have : u ≤ (b.time - t) / 30 := by omega
      unfold Plate.rate
      split <;> omega

-- After its overtime the car pays for another hour, counted from its first payment.
def twoPayments : List (Request × List (Input ⊕ ℕ)) :=
  overtimeVisit ++ [(.pay .a, .inr 40 :: paying "60\n")]

set_option maxRecDepth 4000 in
theorem fair_of_two_payments : ∃ (s : State) (_ : visits.Run (.initial 1700000000) s),
    fees (payments .a s.mem.log) = 120 ∧ Fair .a s.mem.log := by
  have ⟨s, e, he, hs⟩ := Machine.Run.exists_of_exec visits (fun s a => decide (BilledOnce s a))
    (.initial 1700000000) twoPayments
    (fun s => fees (payments .a s.mem.log) = 120 ∧ RepaidInTurn s.mem.log) (by decide)
  have ⟨hf, hr⟩ := of_decide_eq_true hs
  exact ⟨s, e, hf, fair_of_billedOnce e hr (by simpa using he) .a⟩

-- The client pays twice for the same half hour: each time the bill starts at the entry.
def doublePayment : List (Request × List (Input ⊕ ℕ)) :=
  [(.entry 1 .a, statementsOf 6), (.pay .a, .inr 30 :: paying "40\n"), (.pay .a, paying "40\n")]

set_option maxRecDepth 4000 in
theorem fair_broken : ¬ ∀ (clock : ℤ) (s : State) (_ : visits.Run (.initial clock) s),
    RepaidInTurn s.mem.log → ∀ p, Fair p s.mem.log := by
  intro h
  have ⟨s, e, _, hs⟩ := Machine.Run.exists_of_exec visits (fun _ _ => true) (.initial 0)
    doublePayment
    (fun s => RepaidInTurn s.mem.log ∧ entered? .a s.mem.log = some 0 ∧
      payments .a s.mem.log = [{ time := 30, fee := 40 }, { time := 30, fee := 40 }])
    (by decide)
  have ⟨hr, ht, hp⟩ := of_decide_eq_true hs
  exact absurd (h 0 s e hr .a 0 _ _ ht hp) (by decide)

end Parking
