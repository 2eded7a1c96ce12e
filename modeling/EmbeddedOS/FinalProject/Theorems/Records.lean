import EmbeddedOS.FinalProject.Visits

namespace Parking

-- The events that tell something about a bill or a slot.
def Event.counts : Event → Bool
  | replied .. | marked .. => false
  | parked .. | quoted .. | credited .. | expired .. | freed .. | cleared .. => true

def records (log : List Event) : List Event :=
  log.filter Event.counts

variable {pid : ℕ} {plate : Plate} {e : Event} {log : List Event}

theorem records_cons (h : e.counts) : records (e :: log) = e :: records log :=
  List.filter_cons_of_pos h

theorem records_congr {log' : List Event} (h : records log = records log') :
    records (e :: log) = records (e :: log') := by
  cases hc : e.counts
  case true  => rw [records_cons hc, records_cons hc, h]
  case false => simpa [records, hc] using h

theorem entered?_records : entered? plate (records log) = entered? plate log := by
  induction log
  case nil => rfl
  case cons e log hi =>
    cases e
    case parked => rw [records_cons rfl, entered?, hi, entered?]
    all_goals exact hi

theorem quoteTime?_records : quoteTime? plate pid (records log) = quoteTime? plate pid log := by
  induction log
  case nil => rfl
  case cons e log hi =>
    cases e
    case quoted => rw [records_cons rfl, quoteTime?, hi, quoteTime?]
    all_goals exact hi

theorem payments_records : payments plate (records log) = payments plate log := by
  induction log
  case nil => rfl
  case cons e log hi =>
    cases e
    case parked   => rw [records_cons rfl, payments, hi, payments]
    case credited => rw [records_cons rfl, payments, hi, quoteTime?_records, payments]
    all_goals exact hi

theorem takeWhile_records {f : Event → Bool} (h : ∀ e, e.counts = false → f e) :
    (records log).takeWhile f = records (log.takeWhile f) := by
  induction log
  case nil => rfl
  case cons e log hi =>
    cases hc : e.counts
    case true =>
      rw [records_cons hc, List.takeWhile_cons, List.takeWhile_cons, hi]
      split
      case isTrue  => rw [records_cons hc]
      case isFalse => rfl
    case false =>
      rw [List.takeWhile_cons_of_pos (h e hc), records, records,
        List.filter_cons_of_neg (by simp [hc]), List.filter_cons_of_neg (by simp [hc])]
      exact hi

theorem find?_records {f : Event → Bool} (h : ∀ e, e.counts = false → f e = false) :
    (records log).find? f = log.find? f := by
  rw [records, List.find?_filter]
  congr 1
  funext e
  cases hc : e.counts
  case true  => simp
  case false => simp [h e hc]

theorem paidSince_records : paidSince plate (records log) = paidSince plate log := by
  rw [paidSince, takeWhile_records, payments_records, paidSince]
  intro e he
  cases e <;> first | rfl | contradiction

theorem settled_records : Settled plate (records log) ↔ Settled plate log := by
  rw [Settled, find?_records, Settled]
  intro e he
  cases e <;> first | rfl | contradiction

theorem unpaid_records : Unpaid plate (records log) ↔ Unpaid plate log := by
  rw [Unpaid, find?_records, Unpaid]
  intro e he
  cases e <;> first | rfl | contradiction

theorem repaidWhen_records {G : Plate → List Event → Prop}
    (h : ∀ p log, G p (records log) ↔ G p log) :
    RepaidWhen G (records log) ↔ RepaidWhen G log := by
  induction log
  case nil => rfl
  case cons e log hi =>
    cases e
    case expired => rw [records_cons rfl, RepaidWhen, hi, h, RepaidWhen]
    all_goals exact hi

-- Two histories that tell the same about the bill of a plate.
structure SameBill (plate : Plate) (log' log : List Event) : Prop where
  entered?  : entered? plate log' = entered? plate log
  payments  : payments plate log' = payments plate log
  paidSince : paidSince plate log' = paidSince plate log
  settled   : Settled plate log' ↔ Settled plate log
  unpaid    : Unpaid plate log' ↔ Unpaid plate log

theorem SameBill.trans {log' log'' : List Event} (h₁ : SameBill plate log'' log')
    (h₂ : SameBill plate log' log) : SameBill plate log'' log where
  entered?  := h₁.entered?.trans h₂.entered?
  payments  := h₁.payments.trans h₂.payments
  paidSince := h₁.paidSince.trans h₂.paidSince
  settled   := h₁.settled.trans h₂.settled
  unpaid    := h₁.unpaid.trans h₂.unpaid

theorem SameBill.of_records {log' : List Event} (h : records log' = records log) :
    SameBill plate log' log where
  entered?  := by rw [← entered?_records, h, entered?_records]
  payments  := by rw [← payments_records, h, payments_records]
  paidSince := by rw [← paidSince_records, h, paidSince_records]
  settled   := by rw [← settled_records, h, settled_records]
  unpaid    := by rw [← unpaid_records, h, unpaid_records]

-- What happens to another plate does not concern the plate.
theorem SameBill.cons (h : e.bills plate = false) : SameBill plate (e :: log) log where
  entered?  := by cases e <;> simp_all [Event.bills, Parking.entered?]
  payments  := by cases e <;> simp_all [Event.bills, Parking.payments]
  paidSince := by
    have hr : e.repays plate = false := by
      cases e <;> simp_all [Event.bills, Event.repays]
    have hp : ∀ log, Parking.payments plate (e :: log) = Parking.payments plate log := by
      cases e <;> simp_all [Event.bills, Parking.payments]
    rw [Parking.paidSince, List.takeWhile_cons_of_pos (by simp [hr]), hp, Parking.paidSince]
  settled   := by rw [Settled, List.find?_cons_of_neg (by simp [h]), Settled]
  unpaid    := by
    have hb : (e.pays plate || e.repays plate) = false := by
      cases e <;> simp_all [Event.bills, Event.pays, Event.repays]
    rw [Unpaid, List.find?_cons_of_neg (by simp [hb]), Unpaid]

end Parking
