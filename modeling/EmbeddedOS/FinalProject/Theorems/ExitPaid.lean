import EmbeddedOS.FinalProject.Theorems.OwnCar
import EmbeddedOS.FinalProject.Theorems.Uniqueness

namespace Parking

-- A bill: the payment that quotes or credits it, the slot and the fee.
abbrev Bill := ℕ × Slot × ℤ

namespace Event

def opens (plate : Plate) : Event → Bool
  | parked _ p _ _ => p = plate
  | _ => false

def quotes? (plate : Plate) : Event → Option Bill
  | quoted pid p slot _ _ fee => if p = plate then some (pid, slot, fee) else none
  | _ => none

def credits? (plate : Plate) : Event → Option Bill
  | credited pid p slot fee => if p = plate then some (pid, slot, fee) else none
  | _ => none

end Event

-- The part of a history since the last time that a gate gave a slot to the plate, and the bills
-- that have been quoted and credited for the plate since then.
def stay (plate : Plate) (log : List Event) : List Event :=
  log.takeWhile (!·.opens plate)

def quotes (plate : Plate) (log : List Event) : List Bill :=
  (stay plate log).filterMap (·.quotes? plate)

def credits (plate : Plate) (log : List Event) : List Bill :=
  (stay plate log).filterMap (·.credits? plate)

-- A payment has quoted a bill for this stay, and it has added its fee to `*cash`.
def PaidStay (plate : Plate) (log : List Event) : Prop :=
  ∃ b ∈ quotes plate log, b ∈ credits plate log

-- The exit has freed its slot at the end of a stay that was paid.
def FreedPaid (pid : ℕ) (log : List Event) : Prop :=
  ∃ post pre plate slot stored, log = post ++ .freed pid plate slot stored :: pre ∧
    PaidStay plate pre

def Memory.ExitsPaid (m : Memory) : Prop :=
  ∀ pid, .replied pid .exitSuccess ∈ m.log → FreedPaid pid m.log

-- The plate for which the next statement of an exit tests `pay_t`.
def Task.checks? : Task → Option Plate
  | exitpark x => match x.pc with
    | .checkPaid _ => some x.plate
    | _ => none
  | _ => none

-- When an exit tests `pay_t`, one of the bills that have been quoted in this stay has been paid.
def CheckedPaid (s : State) (a : Action) : Prop :=
  ∀ c ∈ s.running? a, ∀ plate ∈ c.task.checks?, quotes plate s.mem.log ≠ [] →
    PaidStay plate s.mem.log

instance (plate : Plate) (log : List Event) : Decidable (PaidStay plate log) :=
  inferInstanceAs <| Decidable (∃ _ ∈ _, _ ∈ _)

instance (s : State) (a : Action) : Decidable (Rescanned s a) :=
  inferInstanceAs <| Decidable (∀ _ ∈ _, ∀ _ ∈ _, _ = _)

instance (s : State) (a : Action) : Decidable (CheckedPaid s a) :=
  inferInstanceAs <| Decidable (∀ _ ∈ _, ∀ _ ∈ _, _ → _)

variable {m m' : Memory} {pid : ℕ} {pos : Slot} {plate : Plate} {l : Lot} {clock : ℤ} {s : State}
variable {t t' : Task} {e : Event} {log new : List Event}

theorem stay_cons (h : e.opens plate = false) : stay plate (e :: log) = e :: stay plate log := by
  simp [stay, h]

theorem stay_append (h : ∀ e ∈ new, e.opens plate = false) :
    stay plate (new ++ log) = new ++ stay plate log := by
  induction new
  case nil => rfl
  case cons e new hi =>
    simp only [List.mem_cons, forall_eq_or_imp] at h
    rw [List.cons_append, stay_cons h.left, hi h.right, List.cons_append]

theorem quotes_append (h : ∀ e ∈ new, e.opens plate = false) (hq : quotes plate log ≠ []) :
    quotes plate (new ++ log) ≠ [] := by
  rw [quotes, stay_append h, List.filterMap_append]
  exact List.append_ne_nil_of_right_ne_nil _ hq

theorem quotes_cons (h : e.opens plate = false) (hq : quotes plate log ≠ []) :
    quotes plate (e :: log) ≠ [] :=
  quotes_append (List.forall_mem_singleton.mpr h) hq

theorem PaidStay.append (hp : PaidStay plate log) (h : ∀ e ∈ new, e.opens plate = false) :
    PaidStay plate (new ++ log) := by
  have ⟨b, hq, hc⟩ := hp
  refine ⟨b, ?quoted, ?credited⟩
  case quoted =>
    rw [quotes, stay_append h, List.filterMap_append]
    exact List.mem_append_right _ hq
  case credited =>
    rw [credits, stay_append h, List.filterMap_append]
    exact List.mem_append_right _ hc

theorem PaidStay.quotes (hp : PaidStay plate log) : quotes plate log ≠ [] :=
  have ⟨_, hq, _⟩ := hp
  List.ne_nil_of_mem hq

theorem FreedPaid.append (h : FreedPaid pid log) : FreedPaid pid (new ++ log) := by
  have ⟨post, pre, plate, slot, stored, hl, hp⟩ := h
  exact ⟨new ++ post, pre, plate, slot, stored, by rw [hl, List.append_assoc], hp⟩

-- Only a gate that gives a slot to the plate opens a stay.
theorem Task.event?_opens (h : t.event? pid m = some e) (ho : e.opens plate) :
    t.plate = plate ∧ ∃ pos, t.parks? m = some pos := by
  cases t
  case entry e =>
    cases hpc : e.pc <;> simp only [event?, Entry.event?, hpc] at h
    all_goals grind [Event.opens, Option.map_eq_some_iff, plate, parks?]
  case exitpark x =>
    cases hpc : x.pc <;> simp only [event?, Exitpark.event?, hpc] at h
    all_goals grind [Event.opens]
  case payment p =>
    cases hpc : p.pc <;> simp only [event?, Payment.event?, hpc] at h
    all_goals grind [Event.opens]

-- The slot for which the next statement of a request writes a `pay_t` that opens the barrier.
def Task.marks? : Task → Option Slot
  | payment p => match p.pc with
    | .quote i => some i
    | .mark q  => some q.slot
    | _ => none
  | exitpark x => match x.pc with
    | .expire pos => some pos
    | _ => none
  | entry _ => none

-- A statement does not touch the `pay_t` of a car that stays, unless it marks the slot.
def PayKept (m m' : Memory) (marks? : Option Slot) : Prop :=
  ∀ i, (m'.car i).licencePlate ≠ [] → (m'.car i).payT ≠ 0 →
    (m'.car i).licencePlate = (m.car i).licencePlate ∧
      ((m'.car i).payT = (m.car i).payT ∨ marks? = some i)

theorem PayKept.of_car {o : Option Slot} (h : m'.car = m.car) : PayKept m m' o := by
  intro i _ _
  simp [h]

theorem PayKept.of_entry {e e' : Entry} (h : e.Move pid m m' e') :
    PayKept m m' (Task.entry e).marks? := by
  cases h
  case allocate pos hpc hf =>
    intro i hn hp
    by_cases hi : i = pos <;> simp_all
  all_goals exact .of_car rfl

theorem PayKept.of_exitpark {x x' : Exitpark} (h : x.Move pid m m' x') :
    PayKept m m' (Task.exitpark x).marks? := by
  cases h
  case expire pos hpc =>
    intro i _ _
    by_cases hi : i = pos <;> simp [Task.marks?, hpc, hi]
  case clear pos _ _ | free pos _ _ _ =>
    intro i hn hp
    by_cases hi : i = pos <;> simp_all
  all_goals exact .of_car rfl

theorem PayKept.of_payment {p p' : Payment} (h : p.Move pid m m' p') :
    PayKept m m' (Task.payment p).marks? := by
  cases h
  case quote pos hpc =>
    intro i _ _
    by_cases hi : i = pos <;> simp [Task.marks?, hpc, hi]
  case mark q hpc =>
    intro i _ _
    by_cases hi : i = q.slot <;> simp [Task.marks?, hpc, hi]
  all_goals exact .of_car rfl

theorem PayKept.of_move (h : t.Move pid m m' t') : PayKept m m' t.marks? := by
  cases h
  case entry h    => exact .of_entry h
  case exitpark h => exact .of_exitpark h
  case payment h  => exact .of_payment h

-- What a request knows about the stay of its car: a payment has quoted a bill from its quote on, an
-- exit has seen a paid stay from its test of `pay_t` on. No other statement answers 'Exit Success'.
def Entry.NoExit (e : Entry) : Prop :=
  match e.pc with
  | .reply r => r ≠ .exitSuccess
  | _ => True

def Payment.Quoted (m : Memory) (p : Payment) : Prop :=
  match p.pc with
  | .writeFee _ | .await _ | .writeWrong _ | .writeFeeAgain _ | .acquireMark _ | .mark _ =>
    quotes p.plate m.log ≠ []
  | _ => True

def Exitpark.Paid (pid : ℕ) (m : Memory) (x : Exitpark) : Prop :=
  match x.pc with
  | .checkTime _ | .acquireLate _ | .expire _ | .acquireFree _ | .free _ => PaidStay x.plate m.log
  | .releaseFree _ | .success _ => FreedPaid pid m.log
  | .reply r => r ≠ .exitSuccess
  | _ => True

def Task.KnowsStay (m : Memory) (pid : ℕ) : Task → Prop
  | payment p  => p.Quoted m
  | exitpark x => x.Paid pid m
  | entry e    => e.NoExit

-- A car that is marked as paid or to be paid again has been told a bill in this stay.
def Memory.MarkedQuoted (m : Memory) : Prop :=
  ∀ i (plate : Plate), (m.car i).licencePlate = plate.chars → (m.car i).payT ≠ 0 →
    quotes plate m.log ≠ []

theorem Entry.Move.noExit {e e' : Entry} (h : e.Move pid m m' e') : e'.NoExit := by
  cases h
  case alreadyParked | releaseNone | light => exact Reply.noConfusion
  all_goals trivial

theorem Payment.Quoted.move {p p' : Payment} (hq : p.Quoted m) (h : p.Move pid m m' p') :
    p'.Quoted m' := by
  cases h
  case quote => simp [Quoted, quotes, stay, Event.opens, Event.quotes?]
  case acquireMark hpc _ => simpa [Quoted, hpc] using hq
  case writeFee hpc | writeWrong hpc | writeFeeAgain hpc =>
    simp only [Quoted, hpc] at hq
    exact quotes_cons rfl hq
  all_goals trivial

-- An exit gets past its test of `pay_t` with a paid stay only, and it frees its slot in this stay.
theorem Exitpark.Paid.move {x x' : Exitpark} (hp : x.Paid pid m) (hm : m.MarkedQuoted)
    (ho : (Task.exitpark x).Owns m)
    (hc : ∀ plate ∈ (Task.exitpark x).checks?, quotes plate m.log ≠ [] → PaidStay plate m.log)
    (h : x.Move pid m m' x') : x'.Paid pid m' := by
  cases h
  case paid i pos hpc hi hn =>
    have hl : (m.car pos).licencePlate = x.plate.chars :=
      ho pos (by simp [Task.index?, index?, hpc, hi])
    exact hc x.plate (by simp [Task.checks?, hpc]) <| hm pos x.plate hl hn
  case late hpc _ | inTime hpc _ => simpa [Paid, hpc] using hp
  case acquireLate hpc _ | acquireFree hpc _ => simpa [Paid, hpc] using hp
  case free pos _ hpc _ =>
    simp only [Paid, hpc] at hp
    exact ⟨[], m.log, x.plate, pos, _, rfl, hp⟩
  case releaseFree hpc => simpa [Paid, hpc] using hp
  case noCar | unpaid | releaseLate => exact Reply.noConfusion
  all_goals trivial

theorem Task.KnowsStay.move (hk : t.KnowsStay m pid) (hm : m.MarkedQuoted) (ho : t.Owns m)
    (hc : ∀ plate ∈ t.checks?, quotes plate m.log ≠ [] → PaidStay plate m.log)
    (h : t.Move pid m m' t') : t'.KnowsStay m' pid := by
  cases h
  case entry h    => exact h.noExit
  case exitpark h => exact Exitpark.Paid.move hk hm ho hc h
  case payment h  => exact Payment.Quoted.move hk h

-- The stay of a request goes on as long as no gate gives another slot to its plate.
theorem Task.KnowsStay.append {m m' : Memory} (hk : t.KnowsStay m pid)
    (hl : m'.log = new ++ m.log)
    (ho : ∀ pos, t.index? = some pos → ∀ e ∈ new, e.opens t.plate = false) :
    t.KnowsStay m' pid := by
  cases t
  case entry => exact hk
  case payment p =>
    simp only [KnowsStay, index?, plate] at hk ho ⊢
    cases hpc : p.pc <;> simp only [Payment.Quoted, Payment.index?, hpc] at hk ho ⊢
    case writeFee | await | writeWrong | writeFeeAgain | acquireMark | mark =>
      rw [hl]
      exact quotes_append (ho _ rfl) hk
  case exitpark x =>
    simp only [KnowsStay, index?, plate] at hk ho ⊢
    cases hpc : x.pc <;> simp only [Exitpark.Paid, Exitpark.index?, hpc] at hk ho ⊢
    case checkTime | acquireLate | expire | acquireFree | free =>
      rw [hl]
      exact hk.append (ho _ rfl)
    case releaseFree | success =>
      rw [hl]
      exact hk.append
    all_goals exact hk

theorem Task.index?_of_marks? (h : t.marks? = some pos) : t.index? = some pos := by
  cases t
  case entry => contradiction
  case exitpark x => cases hpc : x.pc <;> simp_all [marks?, index?, Exitpark.index?]
  case payment p => cases hpc : p.pc <;> simp_all [marks?, index?, Payment.index?]

-- A request that marks a slot knows of a bill, or it quotes one in the same step.
theorem Task.KnowsStay.quotes (hk : t.KnowsStay m pid) (h : t.marks? = some pos)
    (hn : ∀ e ∈ (t.event? pid m).toList, e.opens t.plate = false) :
    Parking.quotes t.plate ((t.event? pid m).toList ++ m.log) ≠ [] := by
  cases t
  case entry => contradiction
  case exitpark x =>
    apply quotes_append hn
    cases hpc : x.pc <;> simp only [marks?, hpc, reduceCtorEq] at h
    simp only [KnowsStay, Exitpark.Paid, hpc] at hk
    exact hk.quotes
  case payment p =>
    cases hpc : p.pc <;> simp only [marks?, hpc, reduceCtorEq] at h
    case quote =>
      simp [event?, Payment.event?, hpc, plate, Parking.quotes, stay, Event.opens, Event.quotes?]
    case mark =>
      simp only [KnowsStay, Payment.Quoted, hpc] at hk
      exact quotes_append hn hk

-- No gate gives a second slot to a plate that has one.
theorem Task.not_opens (hr : ∀ pos ∈ t.parks? m, m.lookup t.plate = none)
    (hi : (m.car pos).licencePlate = plate.chars) :
    ∀ e ∈ (t.event? pid m).toList, e.opens plate = false := by
  intro e he
  by_contra ho
  have ⟨hp, j, hj⟩ := event?_opens (Option.mem_toList.mp he) (Bool.eq_true_of_not_eq_false ho)
  exact Memory.lookup_eq_none.mp (hr j hj) pos (hp ▸ hi)

theorem Memory.MarkedQuoted.move (hm : m.MarkedQuoted) (hk : t.KnowsStay m pid) (ho : t.Owns m)
    (hr : ∀ pos ∈ t.parks? m, m.lookup t.plate = none) (h : t.Move pid m m' t') :
    m'.MarkedQuoted := by
  intro i plate hi hp
  have ⟨hl, hpay⟩ := PayKept.of_move h i (hi ▸ plate.ne_nil) hp
  rw [hl] at hi
  rw [h.log]
  cases hpay
  case inl hpay => exact quotes_append (Task.not_opens hr hi) <| hm i plate hi (hpay ▸ hp)
  case inr hmark =>
    have he : plate = t.plate :=
      Plate.eq_of_chars <| hi.symm.trans <| ho i <| Task.index?_of_marks? hmark
    subst he
    exact hk.quotes hmark (Task.not_opens hr hi)

theorem Task.event?_exitSuccess {j : ℕ} (h : t.event? pid m = some (.replied j .exitSuccess))
    (hk : t.KnowsStay m pid) : j = pid ∧ FreedPaid pid m.log := by
  cases t
  case entry e =>
    cases hpc : e.pc <;> simp only [event?, Entry.event?, hpc, reduceCtorEq] at h
    all_goals simp_all [KnowsStay, Entry.NoExit]
  case exitpark x =>
    cases hpc : x.pc <;> simp only [event?, Exitpark.event?, hpc, reduceCtorEq] at h
    case free => split at h <;> cases h
    all_goals simp_all [KnowsStay, Exitpark.Paid]
  case payment p =>
    cases hpc : p.pc <;> simp [event?, Payment.event?, hpc] at h

theorem Memory.ExitsPaid.move (hm : m.ExitsPaid) (hk : t.KnowsStay m pid)
    (h : t.Move pid m m' t') : m'.ExitsPaid := by
  intro j hj
  rw [h.log] at hj ⊢
  apply FreedPaid.append
  cases List.mem_append.mp hj
  case inl hj =>
    have ⟨he, hf⟩ := Task.event?_exitSuccess (Option.mem_toList.mp hj) hk
    exact he ▸ hf
  case inr hj => exact hm j hj

theorem Task.KnowsStay.read {bytes : List UInt8} (hk : t.KnowsStay m pid)
    (h : t.Read bytes t') : t'.KnowsStay m pid := by
  cases h
  case fault => trivial
  all_goals simpa [KnowsStay, Payment.Quoted, *] using hk

theorem Task.KnowsStay.kill : t.kill.KnowsStay m pid := by
  cases t <;> trivial

-- What has to be in order for the exits of a run to be paid.
structure PaidInTurn (s : State) (a : Action) : Prop where
  checkedPaid   : CheckedPaid s a
  freedUnshared : FreedUnshared s a
  rescanned     : Rescanned s a

def State.Owned : State → Prop :=
  Pool.Annotated Memory.OwnWrites (fun m _ c => c.task.Owns m)

-- The assertions of the payment proof: each request knows the stay of its car, and the stay goes on
-- as long as the request uses the slot.
theorem billing : Pool.Annotation server (fun (s : State) a => s.Owned ∧ PaidInTurn s a)
    (fun m => m.MarkedQuoted ∧ m.ExitsPaid) (fun m pid c => c.task.KnowsStay m pid) where
  spawn r _ := by cases r <;> trivial
  env hm h := by
    cases h
    exact ⟨hm, fun hk => hk.append (List.nil_append _).symm (by simp)⟩
  step {s pid i s'} hs hc a := by
    have hk := hs.procs a.get
    have ho := hc.left.procs a.get
    cases Child.Change.of_step a.step
    case run hi h =>
      subst hi
      have hr := hc.right.rescanned _ a.get
      have hp := hc.right.checkedPaid _ a.get
      exact ⟨⟨hs.mem.left.move hk ho hr h, hs.mem.right.move hk h⟩, hk.move hs.mem.left ho hp h⟩
    case read h hm    => exact ⟨hm ▸ hs.mem, hm ▸ hk.read h⟩
    case hangUp h hm  => exact ⟨hm ▸ hs.mem, hm ▸ h ▸ hk⟩
    case sigpipe h hm => exact ⟨hm ▸ hs.mem, h ▸ .kill⟩
  other {s pid i s'} hs hc a {j q} _ hq := by
    have hk := hs.procs hq
    have ho := hc.left.procs hq
    rcases Child.step_log a.step with ⟨hi, hl⟩ | hm
    case inl =>
      subst hi
      exact hk.append hl fun pos hp => Task.not_opens (hc.right.rescanned _ a.get) (ho pos hp)
    case inr => exact hm ▸ hk

theorem reachable_billed (e : system.Run (.initial clock) s) (hc : e.AllSteps PaidInTurn) :
    Pool.Annotated (fun m => m.MarkedQuoted ∧ m.ExitsPaid) (fun m pid c => c.task.KnowsStay m pid)
      s := by
  have h₀ : Pool.Annotated (fun m => m.MarkedQuoted ∧ m.ExitsPaid)
      (fun m pid c => c.task.KnowsStay m pid) (State.initial clock) :=
    ⟨⟨fun _ _ _ hp => absurd rfl hp, by simp [State.initial, Memory.initial, Memory.ExitsPaid]⟩,
      by simp [State.initial]⟩
  apply billing.run h₀ e
  refine .and_reached (fun e hc => ?_) hc
  exact reachable_owned e <| hc.mono fun _ _ h => h.freedUnshared

-- As long as no exit gets past its test of `pay_t` between a quote and its payment, no slot changes
-- hands under a request and no plate gets a second slot, every successful exit has been paid for.
theorem exitsPaid_of_paidInTurn (e : system.Run (.initial clock) s) (hc : e.AllSteps PaidInTurn) :
    s.mem.ExitsPaid :=
  (reachable_billed e hc).mem.right

instance (s : State) (a : Action) : Decidable (PaidInTurn s a) :=
  decidable_of_iff (CheckedPaid s a ∧ FreedUnshared s a ∧ Rescanned s a)
    ⟨fun ⟨h₁, h₂, h₃⟩ => ⟨h₁, h₂, h₃⟩, fun ⟨h₁, h₂, h₃⟩ => ⟨h₁, h₂, h₃⟩⟩

set_option maxRecDepth 2000 in
theorem exitsPaid_of_orderly_visit : ∃ (s : State) (_ : system.Run (.initial 1700000000) s),
    .replied 2 .exitSuccess ∈ s.mem.log ∧ s.mem.ExitsPaid := by
  have ⟨s, e, he, hs⟩ := Machine.Run.exists_of_exec system (fun s a => decide (PaidInTurn s a))
    (.initial 1700000000) orderlyVisit (fun s => .replied 2 .exitSuccess ∈ s.mem.log)
    (by decide +kernel)
  exact ⟨s, e, of_decide_eq_true hs, exitsPaid_of_paidInTurn e (by simpa using he)⟩

-- A car asks for its bill and leaves without paying it.
def unpaidExit : List Action :=
  [.spawn <| .entry 1 .a] ++ statements 0 6 ++
  [.spawn <| .pay .a] ++ statements 1 4 ++
  [.spawn <| .exit .a] ++ statements 2 9

def Event.isCredited : Event → Bool
  | credited .. => true
  | _ => false

theorem exists_credited (hp : PaidStay plate log) : ∃ e ∈ log, e.isCredited := by
  have ⟨_, _, hb⟩ := hp
  have ⟨e, he, hc⟩ := List.mem_filterMap.mp hb
  refine ⟨e, (List.takeWhile_prefix _).subset he, ?_⟩
  cases e
  case credited => rfl
  all_goals contradiction

set_option maxRecDepth 2000 in
theorem exitsPaid_broken : ¬ ∀ (clock : ℤ) (s : State) (e : system.Run (.initial clock) s),
    e.AllSteps (atomicSections · · = true) → s.mem.ExitsPaid := by
  intro h
  have ⟨s, e, he, hs⟩ := Machine.Run.exists_of_exec system atomicSections (.initial 1700000000)
    unpaidExit (fun s => .replied 2 .exitSuccess ∈ s.mem.log ∧ ∀ e ∈ s.mem.log, !e.isCredited)
    (by decide +kernel)
  have ⟨hr, hn⟩ := of_decide_eq_true hs
  have ⟨_, _, _, _, _, hl, hp⟩ := h _ s e he 2 hr
  have ⟨c, hc, hi⟩ := exists_credited hp
  have := hn c <| hl ▸ List.mem_append_right _ (List.mem_cons_of_mem _ hc)
  simp_all

end Parking
