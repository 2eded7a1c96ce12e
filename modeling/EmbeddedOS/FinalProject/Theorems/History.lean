import EmbeddedOS.FinalProject.Theorems.LotStep

namespace Parking

variable {m m' : Memory} {pid : ℕ}

-- The event that the next statement of a request adds to the history.
def Entry.event? (pid : ℕ) (m : Memory) (e : Entry) : Option Event :=
  match e.pc with
  | .allocate => (m.freeSlot e.plate e.entryNum).map (.parked pid e.plate · m.clock)
  | .reply r  => some <| .replied pid r
  | _ => none

def Exitpark.event? (pid : ℕ) (m : Memory) (x : Exitpark) : Option Event :=
  match x.pc with
  | .expire pos => some <| .expired pid x.plate pos (m.car pos).licencePlate
  | .free pos   =>
    match zone? (m.car pos).elec with
    | none   => some <| .cleared pid x.plate pos (m.car pos).licencePlate
    | some _ => some <| .freed pid x.plate pos (m.car pos).licencePlate
  | .success _  => some <| .replied pid .exitSuccess
  | .reply r    => some <| .replied pid r
  | _ => none

def Payment.event? (pid : ℕ) (m : Memory) (p : Payment) : Option Event :=
  match p.pc with
  | .quote i         =>
    let q := quoteFor m i
    some <| .quoted pid p.plate i (m.car i).licencePlate q.t q.fee
  | .mark q          => some <| .marked pid p.plate q.slot (m.car q.slot).licencePlate
  | .releaseCash q   => some <| .credited pid p.plate q.slot q.fee
  | .writeFee q      => some <| .replied pid <| .fee q.fee
  | .writeWrong _    => some <| .replied pid .wrongAmount
  | .writeFeeAgain q => some <| .replied pid <| .feeAgain q.fee
  | .writeNotFound   => some <| .replied pid .cannotFind
  | .writeSuccess q  =>
    let c := m.car q.slot
    some <| .replied pid <| .paymentSuccess c.licencePlate c.pos q.tpass q.fee
  | _ => none

def Task.event? (pid : ℕ) (m : Memory) : Task → Option Event
  | entry e    => e.event? pid m
  | exitpark x => x.event? pid m
  | payment p  => p.event? pid m

theorem Entry.Move.log {e e' : Entry} (h : e.Move pid m m' e') :
    m'.log = (e.event? pid m).toList ++ m.log := by
  cases h <;> simp [event?, *]

theorem Exitpark.Move.log {x x' : Exitpark} (h : x.Move pid m m' x') :
    m'.log = (x.event? pid m).toList ++ m.log := by
  cases h <;> simp [event?, *]

theorem Payment.Move.log {p p' : Payment} (h : p.Move pid m m' p') :
    m'.log = (p.event? pid m).toList ++ m.log := by
  cases h <;> simp [event?, *]

theorem Task.Move.log {t t' : Task} (h : t.Move pid m m' t') :
    m'.log = (t.event? pid m).toList ++ m.log := by
  cases h
  case entry h    => exact h.log
  case exitpark h => exact h.log
  case payment h  => exact h.log

-- Nothing but the statements of the requests is recorded.
theorem Child.step_log {c c' : Child} {i : Input} (h : c.step pid m i = some (m', c')) :
    (i = .run ∧ m'.log = (c.task.event? pid m).toList ++ m.log) ∨ m' = m := by
  cases Change.of_step h
  case run hi h => exact .inl ⟨hi, h.log⟩
  all_goals exact .inr ‹_›

end Parking
