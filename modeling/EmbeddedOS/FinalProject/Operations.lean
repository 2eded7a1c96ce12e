import EmbeddedOS.FinalProject.Server
import EmbeddedOS.FinalProject.Lot

namespace Parking

namespace Lot

-- The lowest slot in which the plate stands.
def find (l : Lot) (p : Plate) : Option Slot :=
  (List.finRange 16).find? (l.plate · = some p)

-- The free slot of a zone that is nearest to a gate. Gate 1 is at the low end of both zones.
def Nearest (l : Lot) (entryNum : ℤ) (z : Zone) (i : Slot) : Prop :=
  i ∈ l.free z ∧ ∀ j ∈ l.free z, if entryNum = 1 then i ≤ j else j ≤ i

instance (l : Lot) (entryNum : ℤ) (z : Zone) (i : Slot) : Decidable (l.Nearest entryNum z i) :=
  inferInstanceAs <| Decidable (_ ∧ _)

end Lot

-- What a driver is billed for: since when, and the last quote or payment as `pay_t` has it.
structure Dues where
  entryT : ℤ
  payT   : ℤ

-- The books of the server: the lot, what is noted in each slot about the bill of its last car, and
-- the money that has been taken.
structure Books where
  lot  : Lot
  dues : Slot → Dues
  cash : ℤ

namespace Books

def empty : Books where
  lot    := .empty
  dues _ := { entryT := 0, payT := 0 }
  cash   := 0

variable (b : Books)

def park (p : Plate) (i : Slot) (t : ℤ) (h : p.zone = i.zone) : Books where
  lot  := b.lot.park p i h
  dues := Function.update b.dues i { entryT := t, payT := 0 }
  cash := b.cash

def leave (i : Slot) : Books where
  lot  := b.lot.leave i
  dues := Function.update b.dues i { entryT := -1, payT := -1 }
  cash := b.cash

def rebill (i : Slot) (f : Dues → Dues) : Books :=
  { b with dues := Function.update b.dues i (f (b.dues i)) }

-- The plate and the field `elec` of a slot. Once its car has left, it counts as electric.
def stored (i : Slot) : List UInt8 :=
  (b.lot.plate i).elim [] Plate.chars

def elec (i : Slot) : ℤ :=
  (b.lot.plate i).elim (-1) fun _ => i.zone

-- What a request does to the books, at one moment. `pid` names the request.
inductive Op
  | look (pid : ℕ) (p : Plate) (found : Option Slot)
  | park (pid : ℕ) (entryNum : ℤ) (p : Plate) (i : Slot) (t : ℤ)
  | full (pid : ℕ) (z : Zone)
  | check (pid : ℕ) (i : Slot) (paid : Bool)
  | window (pid : ℕ) (i : Slot) (t : ℤ) (late : Bool)
  | expire (pid : ℕ) (i : Slot)
  | leave (pid : ℕ) (i : Slot)
  | clear (pid : ℕ) (i : Slot)
  | quote (pid : ℕ) (i : Slot) (t tpass fee : ℤ)
  | mark (pid : ℕ) (i : Slot) (t : ℤ)
  | collect (pid : ℕ) (fee : ℤ)
  | receipt (pid : ℕ) (i : Slot) (plate : List UInt8)
deriving DecidableEq

def Op.pid : Op → ℕ
  | look pid _ _ | park pid _ _ _ _ | full pid _ | check pid _ _ | window pid _ _ _ | expire pid _
  | leave pid _ | clear pid _ | quote pid _ _ _ _ | mark pid _ _ | collect pid _
  | receipt pid _ _ => pid

def step : Op → Option Books
  | .look _ p found      => if b.lot.find p = found then some b else none
  | .park _ n p i t      =>
    if h : p.zone = i.zone ∧ b.lot.Nearest n p.zone i then some (b.park p i t h.left) else none
  | .full _ z            => if b.lot.free z = ∅ then some b else none
  | .check _ i paid      => if paid = decide ((b.dues i).payT ≠ 0) then some b else none
  | .window _ i t late   => if late = decide (t - (b.dues i).payT > 25) then some b else none
  | .expire _ i          => some <| b.rebill i fun d => { entryT := d.payT, payT := -1 }
  | .leave _ i           => if b.lot.plate i = none then none else some (b.leave i)
  -- An exit whose slot is free again has only this to write.
  | .clear _ i           =>
    if b.lot.plate i = none then some <| b.rebill i fun _ => { entryT := -1, payT := -1 } else none
  | .quote _ i t tpass n =>
    if tpass = t - (b.dues i).entryT ∧ n = feeOf (b.elec i) tpass
    then some <| b.rebill i ({ · with payT := t })
    else none
  | .mark _ i t          => some <| b.rebill i ({ · with payT := t })
  | .collect _ fee       => some { b with cash := C.int (b.cash + fee) }
  | .receipt _ i plate   => if b.stored i = plate then some b else none

-- Books in which one operation is carried out after the other.
def atomic : Machine Books Op where
  step := step

end Books

namespace Task

-- The operation that the next statement of a request carries out.
def op? (pid : ℕ) (m : Memory) : Task → Option Books.Op
  | entry e    =>
    match e.pc with
    | .scan     => some <| .look pid e.plate (m.lookup e.plate)
    | .allocate =>
      match m.freeSlot e.plate e.entryNum with
      | some i => some <| .park pid e.entryNum e.plate i m.clock
      | none   => some <| .full pid e.plate.zone
    | _ => none
  | exitpark x =>
    match x.pc with
    | .scan | .rescan => some <| .look pid x.plate (m.lookup x.plate)
    | .checkPaid pos  => (slot? pos).map fun i => .check pid i (decide ((m.car i).payT ≠ 0))
    | .checkTime i    => some <| .window pid i m.clock (decide (m.clock - (m.car i).payT > 25))
    | .expire i       => some <| .expire pid i
    | .free i         =>
      if (zone? (m.car i).elec).isSome then some <| .leave pid i else some <| .clear pid i
    | _ => none
  | payment p  =>
    match p.pc with
    | .scan           => some <| .look pid p.plate (m.lookup p.plate)
    | .quote i        =>
      let q := Payment.quoteFor m i
      some <| .quote pid i q.t q.tpass q.fee
    | .mark q         => some <| .mark pid q.slot q.t
    | .storeCash q _  => some <| .collect pid q.fee
    | .writeSuccess q => some <| .receipt pid q.slot (m.car q.slot).licencePlate
    | _ => none

end Task

def State.op? (s : State) (a : Action) : Option Books.Op :=
  match a with
  | .act pid .run => s.procs[pid]?.bind fun c => c.task.op? pid s.mem
  | _ => none

-- The operations of one request, and what it has answered, newest first.
def opsOf (pid : ℕ) (ops : List Books.Op) : List Books.Op :=
  ops.filter (·.pid = pid)

def Event.reply? (pid : ℕ) : Event → Option Reply
  | replied q r => if q = pid then some r else none
  | _ => none

def repliesTo (pid : ℕ) (log : List Event) : List Reply :=
  log.filterMap (Event.reply? pid)

-- What a payment has sent when its fee has been refused this often.
def feeReplies (fee : ℤ) : ℕ → List Reply
  | 0     => [.fee fee]
  | n + 1 => .feeAgain fee :: .wrongAmount :: feeReplies fee n

-- The answers that a request gets, for what its operations on the books have come to. How often a
-- payment has refused a reply is up to its client.
inductive Answered (pid : ℕ) : Request → List Books.Op → List Reply → Prop
  | parked (n : ℤ) (p : Plate) (i : Slot) :
    Answered pid (.entry n p) [.look pid p (some i)] [.alreadyParked]
  | noSpace (n : ℤ) (p : Plate) :
    Answered pid (.entry n p) [.full pid p.zone, .look pid p none] [.noSpace]
  | entered (n : ℤ) (p : Plate) (i : Slot) (t : ℤ) :
    Answered pid (.entry n p) [.park pid n p i t, .look pid p none] [.entrySuccess]
  | noCar (p : Plate) : Answered pid (.exit p) [.look pid p none] [.noCar]
  | unpaid (p : Plate) (i j : Slot) :
    Answered pid (.exit p) [.check pid j false, .look pid p (some j), .look pid p (some i)]
      [.payFirst]
  | late (p : Plate) (i j : Slot) (t : ℤ) :
    Answered pid (.exit p)
      [.expire pid j, .window pid j t true, .check pid j true, .look pid p (some j),
        .look pid p (some i)]
      [.repay]
  | left (p : Plate) (i j : Slot) (t : ℤ) :
    Answered pid (.exit p)
      [.leave pid j, .window pid j t false, .check pid j true, .look pid p (some j),
        .look pid p (some i)]
      [.exitSuccess]
  | cannotFind (p : Plate) : Answered pid (.pay p) [.look pid p none] [.cannotFind]
  | paid (p : Plate) (i : Slot) (t tpass fee : ℤ) (stored : List UInt8) (wrong : ℕ) :
    Answered pid (.pay p)
      [.receipt pid i stored, .collect pid fee, .mark pid i t, .quote pid i t tpass fee,
        .look pid p (some i)]
      (.paymentSuccess stored i tpass fee :: feeReplies fee wrong)

end Parking
