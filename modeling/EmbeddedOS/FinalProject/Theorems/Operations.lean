import EmbeddedOS.FinalProject.Operations
import EmbeddedOS.FinalProject.Theorems.History
import EmbeddedOS.FinalProject.Theorems.Cash
import EmbeddedOS.FinalProject.Theorems.Allocation
import EmbeddedOS.FinalProject.Theorems.Visits
import EmbeddedOS.Library.Refinement

namespace Parking

-- What a car says about its bill.
def Car.dues (c : Car) : Dues where
  entryT := c.entryT
  payT   := c.payT

-- The memory carries the books: it represents their lot, and it has the dues and the cash.
structure Memory.Carries (m : Memory) (b : Books) : Prop where
  lot  : m.Holds b.lot
  dues : ∀ i, (m.car i).dues = b.dues i
  cash : m.cash = b.cash

-- A slot in which a car has stood has its number.
def Memory.Numbered (m : Memory) : Prop :=
  ∀ i, m.Visited i → (m.car i).pos = i

-- The slot of a payment, from its scan to its end.
def Payment.slot? (y : Payment) : Option Slot :=
  match y.pc with
  | .quote i => some i
  | .writeFee q | .await q | .writeWrong q | .writeFeeAgain q | .acquireMark q | .mark q
  | .releaseMark q | .acquireCash q | .loadCash q | .addCash q _ | .storeCash q _ | .releaseCash q
  | .writeSuccess q => some q.slot
  | _ => none

def Task.bills? : Task → Option Slot
  | payment y => y.slot?
  | _ => none

-- A payment only uses slots that have been visited.
def Task.Bills (m : Memory) (t : Task) : Prop :=
  ∀ i, t.bills? = some i → m.Visited i

variable {m m' : Memory} {l : Lot} {b : Books} {pid : ℕ} {i : Slot} {z : Zone} {n clock : ℤ}
variable {p : Plate} {s s' : State} {ops : List Books.Op} {rs : List Reply}

-- The scans and the loops of the gates look at the lot that the memory represents.
namespace Memory.Holds

theorem licencePlate_iff (h : m.Holds l) :
    (m.car i).licencePlate = p.chars ↔ l.plate i = some p := by
  have hs := h.slot i
  cases hl : l.plate i <;> simp only [hl, Car.Shows] at hs
  case none   => simp [hs.right, p.ne_nil.symm]
  case some q =>
    rw [hs.right.left, Option.some_inj]
    exact ⟨Plate.eq_of_chars, congrArg _⟩

theorem find (h : m.Holds l) (p : Plate) : l.find p = m.lookup p := by
  simp only [Lot.find, Memory.lookup, h.licencePlate_iff]

theorem mem_free (h : m.Holds l) : i ∈ l.free z ↔ i.zone = z ∧ m.parkSpace i = 0 := by
  rw [Lot.mem_free, h.free_iff]

theorem free_eq_empty (h : m.Holds l) (hf : m.freeSlot p n = none) : l.free p.zone = ∅ := by
  ext j
  simpa [h.mem_free] using Memory.freeSlot_eq_none.mp hf j

end Memory.Holds

section Slots

theorem LotStep.numbered {t : Task} (h : LotStep pid m t m') (hv : t.Visits m)
    (hn : m.Numbered) : m'.Numbered := by
  intro j hj
  cases h
  case same h => exact h.pos j ▸ hn j (by simpa [Memory.Visited, h.licencePlate, h.elec] using hj)
  case park i _ _ hm =>
    by_cases hi : j = i
    case pos => simp [hm, hi]
    case neg => simpa [hm, hi] using hn j (by simpa [Memory.Visited, hm, hi] using hj)
  case leave i _ _ hf _ hm | fault i _ hf _ hm =>
    by_cases hi : j = i
    case pos => simpa [hm, hi] using hn i <| hv i <| Task.exitIndex?_of_frees? hf
    case neg => simpa [hm, hi] using hn j (by simpa [Memory.Visited, hm, hi] using hj)

namespace Task

variable {t t' : Task}

-- A payment gets its slot from its scan.
theorem Move.bills? (h : t.Move pid m m' t') (hi : t'.bills? = some i) :
    t.bills? = some i ∨ (m' = m ∧ m.lookup t.plate = some i) := by
  cases h
  case payment h =>
    cases h
    case found j hpc hl => exact .inr ⟨rfl, by simp_all [Task.bills?, Payment.slot?, Task.plate]⟩
    all_goals simp_all [Task.bills?, Payment.slot?]
  all_goals contradiction

theorem Read.bills? {bytes : List UInt8} (h : t.Read bytes t') (hi : t'.bills? = some i) :
    t.bills? = some i := by
  cases h <;> simp_all [Task.bills?, Payment.slot?, Quote.read]

end Task

-- The invariants that hold whenever a request carries out an operation.
structure State.Orderly (s : State) : Prop where
  represents : s.Represents
  numbered   : Pool.Annotated Memory.Numbered (fun m _ c => c.task.Bills m) s
  loaded     : Pool.Annotated (fun _ => True) (fun m _ c => c.task.Loaded m) s

end Slots

namespace Memory.Carries

variable {c : Car} {f : Dues → Dues}

theorem entryT (h : m.Carries b) (i : Slot) : (b.dues i).entryT = (m.car i).entryT := by
  rw [← h.dues]; rfl

theorem payT (h : m.Carries b) (i : Slot) : (b.dues i).payT = (m.car i).payT := by
  rw [← h.dues]; rfl

theorem of_car (h : m.Carries b) (hm : m'.car = m.car) (hp : m'.parkSpace = m.parkSpace)
    (hs : m'.spaceLeft = m.spaceLeft) (hc : m'.cash = m.cash) : m'.Carries b where
  lot    := h.lot.congr <| .of_car hm hp hs
  dues i := hm ▸ h.dues i
  cash   := hc.trans h.cash

theorem dues_update {d : Dues} (h : m.Carries b) (hm : m'.car = Function.update m.car i c)
    (hd : c.dues = d) (j : Slot) : (m'.car j).dues = Function.update b.dues i d j := by
  by_cases hj : j = i
  case pos => subst hj; simp [hm, hd]
  case neg => simp [hm, hj, h.dues]

theorem rebill (h : m.Carries b) (hs : m'.SameLot m) (hm : m'.car = Function.update m.car i c)
    (hd : c.dues = f (m.car i).dues) (hc : m'.cash = m.cash) : m'.Carries (b.rebill i f) where
  lot  := h.lot.congr hs
  dues := h.dues_update hm (h.dues i ▸ hd)
  cash := hc.trans h.cash

theorem park (h : m.Carries b) (hf : m.freeSlot p n = some i) (hz : p.zone = i.zone) :
    (m.park pid p i).Carries (b.park p i m.clock hz) where
  lot  := h.lot.park (h.lot.free_iff.mpr (Memory.freeSlot_eq_some hf).left) hz
  dues := h.dues_update rfl rfl
  cash := h.cash

theorem leave (h : m.Carries b) (hn : b.lot.plate i ≠ none) :
    (m.leave pid p i i.zone).Carries (b.leave i) where
  lot  := h.lot.leave hn
  dues := h.dues_update rfl rfl
  cash := h.cash

theorem stored (h : m.Carries b) (i : Slot) : b.stored i = (m.car i).licencePlate := by
  have hs := h.lot.slot i
  cases hl : b.lot.plate i <;> simp only [hl, Car.Shows] at hs <;> simp [Books.stored, hl, hs]

theorem elec (h : m.Carries b) (hv : m.Visited i) : b.elec i = (m.car i).elec := by
  cases hl : b.lot.plate i
  case none   => simp [Books.elec, hl, hv.elec h.lot hl]
  case some p =>
    have hs := h.lot.slot i
    simp only [hl, Car.Shows] at hs
    simp [Books.elec, hl, hs]

end Memory.Carries

@[simp]
theorem Books.follow_none (b : Books) : Books.atomic.follow b none = some b :=
  rfl

@[simp]
theorem Books.follow_some (b : Books) (o : Books.Op) : Books.atomic.follow b (some o) = b.step o :=
  rfl

theorem State.op?_run {c : Child} (h : s.procs[pid]? = some c) :
    s.op? (.act pid .run) = c.task.op? pid s.mem := by
  simp [op?, h]

theorem State.op?_of_ne {x : Input} (h : x ≠ .run) : s.op? (.act pid x) = none := by
  cases x
  case run => contradiction
  all_goals rfl

-- What a request has done to the books and what it has answered when it comes to a statement.
def Entry.Told (pid : ℕ) (e : Entry) (ops : List Books.Op) (rs : List Reply) : Prop :=
  match e.pc with
  | .scan                       => ops = [] ∧ rs = []
  | .acquire | .allocate        => ops = [.look pid e.plate none] ∧ rs = []
  | .release none               =>
    ops = [.full pid e.plate.zone, .look pid e.plate none] ∧ rs = []
  | .release (some i) | .light i =>
    ∃ t, ops = [.park pid e.entryNum e.plate i t, .look pid e.plate none] ∧ rs = []
  | .reply r                    => Answered pid (.entry e.entryNum e.plate) ops [r] ∧ rs = []
  | .exited                     => Answered pid (.entry e.entryNum e.plate) ops rs
  | .killed | .faulted          => True

-- The operations of an exit up to its first access to its slot.
def Exitpark.looks (pid : ℕ) (p : Plate) (i : Slot) (j : Option Slot) : List Books.Op :=
  [.look pid p j, .look pid p (some i)]

def Exitpark.Told (pid : ℕ) (x : Exitpark) (ops : List Books.Op) (rs : List Reply) : Prop :=
  match x.pc with
  | .scan                       => ops = [] ∧ rs = []
  | .rescan                     => ∃ i, ops = [.look pid x.plate (some i)] ∧ rs = []
  | .checkPaid pos              => ∃ i, ops = looks pid x.plate i (slot? pos) ∧ rs = []
  | .checkTime j                =>
    ∃ i, ops = .check pid j true :: looks pid x.plate i (some j) ∧ rs = []
  | .acquireLate j | .expire j  =>
    ∃ i t, ops = .window pid j t true :: .check pid j true :: looks pid x.plate i (some j) ∧ rs = []
  | .acquireFree j | .free j    =>
    ∃ i t, ops = .window pid j t false :: .check pid j true :: looks pid x.plate i (some j) ∧
      rs = []
  | .releaseLate _              => Answered pid (.exit x.plate) ops [.repay] ∧ rs = []
  | .releaseFree _ | .success _ => Answered pid (.exit x.plate) ops [.exitSuccess] ∧ rs = []
  | .reply r                    => Answered pid (.exit x.plate) ops [r] ∧ rs = []
  | .light _ | .exited          => Answered pid (.exit x.plate) ops rs
  | .killed | .faulted | .faultedInside => True

-- The operations of a payment that has quoted its fee.
def Payment.quoted (pid : ℕ) (p : Plate) (q : Quote) : List Books.Op :=
  [.quote pid q.slot q.t q.tpass q.fee, .look pid p (some q.slot)]

def Payment.Told (pid : ℕ) (y : Payment) (ops : List Books.Op) (rs : List Reply) : Prop :=
  match y.pc with
  | .acquireCounting | .scan => ops = [] ∧ rs = []
  | .quote i                 => ops = [.look pid y.plate (some i)] ∧ rs = []
  | .writeFee q              => ops = quoted pid y.plate q ∧ rs = []
  | .writeFeeAgain q         =>
    ops = quoted pid y.plate q ∧ ∃ n, rs = .wrongAmount :: feeReplies q.fee n
  | .writeNotFound           => ops = [.look pid y.plate none] ∧ rs = []
  | .await q | .writeWrong q | .acquireMark q | .mark q =>
    ops = quoted pid y.plate q ∧ ∃ n, rs = feeReplies q.fee n
  | .releaseMark q | .acquireCash q | .loadCash q | .addCash q _ | .storeCash q _ =>
    ops = .mark pid q.slot q.t :: quoted pid y.plate q ∧ ∃ n, rs = feeReplies q.fee n
  | .releaseCash q | .writeSuccess q =>
    ops = .collect pid q.fee :: .mark pid q.slot q.t :: quoted pid y.plate q ∧
      ∃ n, rs = feeReplies q.fee n
  | .releaseCounting | .exited => Answered pid (.pay y.plate) ops rs
  | .killed | .faulted       => True

def Task.Told (pid : ℕ) (t : Task) (ops : List Books.Op) (rs : List Reply) : Prop :=
  match t with
  | entry e    => e.Told pid ops rs
  | exitpark x => x.Told pid ops rs
  | payment y  => y.Told pid ops rs

-- The reply that the next statement of a request sends.
def Task.reply? (pid : ℕ) (m : Memory) (t : Task) : Option Reply :=
  (t.event? pid m).bind (·.reply? pid)

theorem Entry.Told.move {e e' : Entry} (ht : e.Told pid ops rs) (h : e.Move pid m m' e') :
    e'.Told pid (((Task.entry e).op? pid m).toList ++ ops)
      (((Task.entry e).reply? pid m).toList ++ rs) := by
  cases h
  all_goals simp only [Told, ‹Entry.pc _ = _›] at ht
  all_goals
    simp [Told, Task.op?, Task.reply?, Task.event?, Entry.event?, Event.reply?, *]
  case alreadyParked => exact .parked ..
  case releaseNone => exact .noSpace ..
  case light =>
    have ⟨_, ho, hr⟩ := ht
    exact ⟨ho ▸ .entered .., hr⟩

theorem Exitpark.Told.move {x x' : Exitpark} (ht : x.Told pid ops rs) (h : x.Move pid m m' x') :
    x'.Told pid (((Task.exitpark x).op? pid m).toList ++ ops)
      (((Task.exitpark x).reply? pid m).toList ++ rs) := by
  cases h
  all_goals simp only [Told, ‹Exitpark.pc _ = _›] at ht
  case clear | fault => trivial
  all_goals
    simp [Told, Task.op?, Task.reply?, Task.event?, Exitpark.event?, Event.reply?,
      Memory.slot?_scanIndex, *]
  case noCar => exact .noCar ..
  case rescan =>
    have ⟨i, ho, hr⟩ := ht
    exact ⟨⟨i, ho ▸ rfl⟩, hr⟩
  case unpaid hi _ =>
    have ⟨_, ho, hr⟩ := ht
    exact ⟨ho ▸ hi ▸ .unpaid .., hr⟩
  case paid hi _ => simpa [hi] using ht
  case acquireLate | acquireFree => simpa using ht
  case expire =>
    have ⟨_, _, ho, hr⟩ := ht
    exact ⟨ho ▸ .late .., hr⟩
  case free =>
    have ⟨_, _, ho, hr⟩ := ht
    exact ⟨ho ▸ .left .., hr⟩

theorem Payment.Told.move {y y' : Payment} (ht : y.Told pid ops rs) (h : y.Move pid m m' y')
    (hn : m.Numbered) (hv : (Task.payment y).Bills m) :
    y'.Told pid (((Task.payment y).op? pid m).toList ++ ops)
      (((Task.payment y).reply? pid m).toList ++ rs) := by
  cases h
  all_goals simp only [Told, ‹Payment.pc _ = _›] at ht
  all_goals
    simp [Told, Task.op?, Task.reply?, Task.event?, Payment.event?, Event.reply?, *]
  case quote => rfl
  case writeFee => exact ⟨0, rfl⟩
  case writeFeeAgain =>
    have ⟨n, hr⟩ := ht.right
    exact ⟨rfl, n + 1, hr ▸ rfl⟩
  case writeSuccess q hpc =>
    have ⟨n, hr⟩ := ht.right
    rw [hr, hn q.slot <| hv q.slot <| by simp [Task.bills?, slot?, hpc]]
    exact .paid ..
  case writeNotFound => exact .cannotFind ..

namespace Task

variable {t t' : Task} {j : ℕ} {o : Books.Op}

theorem Told.move (ht : t.Told pid ops rs) (h : t.Move pid m m' t') (hn : m.Numbered)
    (hv : t.Bills m) :
    t'.Told pid ((t.op? pid m).toList ++ ops) ((t.reply? pid m).toList ++ rs) := by
  cases h
  case entry h    => exact Entry.Told.move ht h
  case exitpark h => exact Exitpark.Told.move ht h
  case payment h  => exact Payment.Told.move ht h hn hv

theorem Told.read {bytes : List UInt8} (ht : t.Told pid ops rs) (h : t.Read bytes t') :
    t'.Told pid ops rs := by
  cases h
  case fault => trivial
  all_goals
    simp only [Told, Payment.Told, ‹Payment.pc _ = _›] at ht
    exact ht

theorem told_kill : t.kill.Told pid ops rs := by
  cases t <;> trivial

theorem Told.answered (ht : t.Told pid ops rs) (h : t.exited) :
    Answered pid t.request ops rs := by
  cases t
  case entry e =>
    have hpc : e.pc = .exited := by simpa [exited] using h
    simpa only [Told, Entry.Told, hpc, request] using ht
  case exitpark x =>
    have hpc : x.pc = .exited := by simpa [exited] using h
    simpa only [Told, Exitpark.Told, hpc, request] using ht
  case payment y =>
    have hpc : y.pc = .exited := by simpa [exited] using h
    simpa only [Told, Payment.Told, hpc, request] using ht

-- A request acts and answers under its own name only.
theorem op?_pid (h : t.op? pid m = some o) : o.pid = pid := by
  cases t <;> simp only [op?] at h
  case entry => split at h <;> grind [Books.Op.pid]
  all_goals grind [Books.Op.pid, Option.map_eq_some_iff]

theorem reply?_of_ne (hj : j ≠ pid) : (t.event? pid m).bind (·.reply? j) = none := by
  cases t
  case entry e =>
    cases hpc : e.pc <;> simp [event?, Entry.event?, hpc, Event.reply?, hj.symm]
  case exitpark x =>
    cases hpc : x.pc <;> simp only [event?, Exitpark.event?, hpc]
    case free i => cases zone? (m.car i).elec <;> simp [Event.reply?]
    all_goals simp [Event.reply?, hj.symm]
  case payment y =>
    cases hpc : y.pc <;> simp [event?, Payment.event?, hpc, Event.reply?, hj.symm]

end Task

-- Each request has done and answered what its statements say, and those to come nothing.
structure State.Told (s : State) (ops : List Books.Op) : Prop where
  procs : ∀ {pid : ℕ} {c : Child}, s.procs[pid]? = some c →
    c.task.Told pid (opsOf pid ops) (repliesTo pid s.mem.log)
  idle  : ∀ {pid : ℕ}, s.procs.length ≤ pid → opsOf pid ops = [] ∧ repliesTo pid s.mem.log = []

namespace State.Told

-- What one request does adds nothing to what the others have done and answered.
theorem opsOf_append {t : Task} (j : ℕ) : opsOf j ((t.op? pid m).toList ++ ops) =
    if j = pid then (t.op? pid m).toList ++ opsOf j ops else opsOf j ops := by
  cases h : t.op? pid m
  case none => simp
  case some o =>
    have hp := Task.op?_pid h
    by_cases hj : j = pid <;> simp [opsOf, hp, hj, eq_comm]

theorem repliesTo_append {t : Task} (j : ℕ) (hl : m'.log = (t.event? pid m).toList ++ m.log) :
    repliesTo j m'.log =
      if j = pid then (t.reply? pid m).toList ++ repliesTo j m.log else repliesTo j m.log := by
  rw [hl, repliesTo, List.filterMap_append]
  by_cases hj : j = pid
  case pos =>
    subst hj
    cases h : t.event? j m
    case none   => simp [Task.reply?, h, repliesTo]
    case some e => cases he : e.reply? j <;> simp [Task.reply?, h, he, repliesTo]
  case neg =>
    have hr : (t.event? pid m).bind (·.reply? j) = none := Task.reply?_of_ne hj
    cases h : t.event? pid m <;> simp_all [repliesTo]

-- A child that gets an input neither operates on the lot nor answers.
theorem keeps {x : Input} (hs : s.Told ops) (a : Pool.Acts server s pid x s')
    (hm : s'.mem = s.mem)
    (ht : a.post.task.Told pid (opsOf pid ops) (repliesTo pid s.mem.log)) : s'.Told ops where
  procs hc := by
    rcases a.get_cases hc with ⟨rfl, rfl⟩ | ⟨_, hc⟩
    case inl => exact hm ▸ ht
    case inr => exact hm ▸ hs.procs hc
  idle hp := hm ▸ hs.idle (by simpa [a.procs] using hp)

theorem step {a : Action} (hs : s.Told ops) (hc : s.Orderly) (h : system.step s a = some s') :
    s'.Told ((s.op? a).toList ++ ops) := by
  cases a
  case spawn r =>
    have hm : s'.mem = s.mem := by rw [Pool.spawn_eq h]
    have hl : s'.procs.length = s.procs.length + 1 := by simp [Pool.spawn_eq h]
    refine ⟨fun {pid c} hc => ?_, fun hp => hm ▸ hs.idle (by omega)⟩
    cases Pool.spawn_eq h
    rcases Nat.lt_trichotomy pid s.procs.length with hp | hp | hp
    case inl     => exact hs.procs <| by rwa [List.getElem?_append_left hp] at hc
    case inr.inl =>
      have hc : fork r = c := by simpa [hp, server] using hc
      obtain ⟨ho, hr⟩ := hs.idle hp.ge
      cases r <;> exact hc ▸ ⟨ho, hr⟩
    case inr.inr => simp [List.getElem?_append_right hp.le, Nat.sub_ne_zero_of_lt hp] at hc
  case env d =>
    obtain ⟨_, hm, rfl⟩ := Pool.env_eq h
    cases hm
    exact ⟨hs.procs, hs.idle⟩
  case act pid x =>
    obtain ⟨a⟩ := Pool.Acts.of_step h
    have hl : s'.procs.length = s.procs.length := by simp [a.procs]
    have hlt := (List.getElem?_eq_some_iff.mp a.get).fst
    have ht := hs.procs a.get
    cases Child.Change.of_step a.step
    case run hi hm =>
      have ho (j : ℕ) : opsOf j ((a.pre.task.op? pid s.mem).toList ++ ops) = _ := opsOf_append j
      have hr (j) := repliesTo_append j hm.log
      have hq := ht.move hm hc.numbered.mem (hc.numbered.procs a.get)
      rw [hi, op?_run a.get]
      refine ⟨fun {j c} hc => ?_, fun {j} hj => ?_⟩
      case refine_1 =>
        rcases a.get_cases hc with ⟨rfl, rfl⟩ | ⟨hj, hc⟩
        case inl => simpa only [ho, hr, if_true] using hq
        case inr => simpa only [ho, hr, hj, if_false] using hs.procs hc
      case refine_2 =>
        have hj' : j ≠ pid := by omega
        simpa only [ho, hr, hj', if_false] using hs.idle (hl ▸ hj)
    case read hi bytes hr hm =>
      rw [op?_of_ne hi.left]
      exact hs.keeps a hm <| ht.read hr
    case hangUp hi hc hm =>
      rw [op?_of_ne (by simp [hi])]
      exact hs.keeps a hm <| hc ▸ ht
    case sigpipe hi hw hc hm =>
      rw [op?_of_ne (by simp [hi])]
      exact hs.keeps a hm <| hc ▸ Task.told_kill

end State.Told

end Parking
