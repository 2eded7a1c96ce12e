import EmbeddedOS.FinalProject.Memory
import EmbeddedOS.Library.Decimal

open C

namespace Parking

-- The locals of `payment` once it has found the car: its index, the time and the fee that it
-- quotes, and the buffer that it shares between its own messages and the replies of the client.
structure Quote where
  slot  : Slot
  t     : ℤ
  tpass : ℤ
  fee   : ℤ
  buf   : List UInt8
deriving DecidableEq

-- The buffer after a `read` of these bytes.
def Quote.read (q : Quote) (bytes : List UInt8) : Quote :=
  { q with buf := overlay bytes q.buf }

-- A child that runs `payment(connfd, plate)`, with the statement that it executes next.
inductive Payment.Pc
  | acquireCounting              -- P(sem_counting)
  | scan
  | quote (i : Slot)             -- time(NULL), the write of pay_t and the fee
  | writeFee (q : Quote)
  | await (q : Quote)            -- read() and the comparison of atoi(buf) with fee
  | writeWrong (q : Quote)
  | writeFeeAgain (q : Quote)
  | acquireMark (q : Quote)
  | mark (q : Quote)             -- the body of the first section, pay_t
  | releaseMark (q : Quote)
  | acquireCash (q : Quote)
  | loadCash (q : Quote)         -- the body of the second section, *cash += fee
  | addCash (q : Quote) (cash : ℤ)
  | storeCash (q : Quote) (cash : ℤ)
  | releaseCash (q : Quote)
  | writeSuccess (q : Quote)
  | writeNotFound
  | releaseCounting              -- V(sem_counting)
  | exited
  | killed
  | faulted                      -- stopped inside of the section, at the end of buf
deriving DecidableEq

structure Payment where
  plate : Plate
  pc    : Payment.Pc

-- The `long` result of the fee formula, stored in an `int`.
def feeOf (elec tpass : ℤ) : ℤ :=
  C.int <| if elec ≠ 0 then 30 * (tpass.tdiv 30 + 1) else 20 * (tpass.tdiv 30 + 1)

namespace Memory

variable (m : Memory)

@[simps! -fullyApplied]
def setPay (pos : Slot) (t : ℤ) : Memory :=
  m.setCar pos ({ · with payT := t })

end Memory

namespace Payment

@[simps]
def goto (p : Payment) (pc : Pc) : Payment :=
  { p with pc }

-- The quote for a car, with the message `Fee:%d\n` in the zeroed buffer.
def quoteFor (m : Memory) (i : Slot) : Quote :=
  let tpass := m.clock - (m.car i).entryT
  let fee := feeOf (m.car i).elec tpass
  { slot := i, t := m.clock, tpass, fee, buf := sprintf (.replicate 256 0) (Reply.fee fee).text }

@[simp]
theorem quoteFor_slot (m : Memory) (i : Slot) : (quoteFor m i).slot = i := rfl

@[simp]
theorem quoteFor_t (m : Memory) (i : Slot) : (quoteFor m i).t = m.clock := rfl

-- The comparison of atoi(buf) with fee. If nothing in `buf` ends the number, atoi reads behind it.
def compare (p : Payment) (q : Quote) : Payment :=
  if behindNumber q.buf = [] then p.goto .faulted
  else if atoi q.buf = q.fee then p.goto <| .acquireMark q else p.goto <| .writeWrong q

def step (pid : ℕ) (m : Memory) (p : Payment) : Option (Memory × Payment) :=
  match p.pc with
  | .acquireCounting  => m.lockCounting.map (·, p.goto .scan)
  | .scan             =>
    match m.lookup p.plate with
    | some i => some (m, p.goto <| .quote i)
    | none   => some (m, p.goto .writeNotFound)
  | .quote i          =>
    let q := quoteFor m i
    some ((m.setPay i q.t).note <| .quoted pid p.plate i (m.car i).licencePlate q.t q.fee,
      p.goto <| .writeFee q)
  | .writeFee q       => some (m.note <| .replied pid <| .fee q.fee, p.goto <| .await q)
  | .writeWrong q     => some (m.note <| .replied pid .wrongAmount, p.goto <| .writeFeeAgain q)
  | .writeFeeAgain q  =>
    some (m.note <| .replied pid <| .feeAgain q.fee,
      p.goto <| .await { q with buf := sprintf q.buf (Reply.feeAgain q.fee).text })
  | .acquireMark q    => m.lockMutex.map (·, p.goto <| .mark q)
  | .mark q           =>
    some ((m.setPay q.slot q.t).note <| .marked pid p.plate q.slot (m.car q.slot).licencePlate,
      p.goto <| .releaseMark q)
  | .releaseMark q    => some (m.unlockMutex, p.goto <| .acquireCash q)
  | .acquireCash q    => m.lockMutex.map (·, p.goto <| .loadCash q)
  | .loadCash q       => some (m, p.goto <| .addCash q m.cash)
  | .addCash q cash   => some (m, p.goto <| .storeCash q <| C.int (cash + q.fee))
  | .storeCash q cash => some ({ m with cash }, p.goto <| .releaseCash q)
  | .releaseCash q    =>
    some (m.unlockMutex.note <| .credited pid p.plate q.slot q.fee, p.goto <| .writeSuccess q)
  | .writeSuccess q   =>
    let c := m.car q.slot
    some (m.note <| .replied pid <| .paymentSuccess c.licencePlate c.pos q.tpass q.fee,
      p.goto .releaseCounting)
  | .writeNotFound    => some (m.note <| .replied pid .cannotFind, p.goto .releaseCounting)
  | .releaseCounting  => some (m.unlockCounting, p.goto .exited)
  | .await _ | .exited | .killed | .faulted => none

-- `read` delivers the bytes of the client, or nothing once the client has closed the connection.
def read (bytes : List UInt8) (p : Payment) : Option Payment :=
  match p.pc with
  | .await q => some <| p.compare <| q.read bytes
  | _ => none

-- Inside of the section that `sem_counting` guards.
def insideCounting (p : Payment) : Bool :=
  match p.pc with
  | .acquireCounting | .exited | .killed => false
  | _ => true

def insideMutex (p : Payment) : Bool :=
  match p.pc with
  | .mark _ | .releaseMark _ | .loadCash _ | .addCash _ _ | .storeCash _ _ | .releaseCash _ => true
  | _ => false

def writing (p : Payment) : Bool :=
  match p.pc with
  | .writeFee _ | .writeWrong _ | .writeFeeAgain _ | .writeSuccess _ | .writeNotFound => true
  | _ => false

def ended (p : Payment) : Bool :=
  match p.pc with
  | .exited | .killed | .faulted => true
  | _ => false

-- The slot that the child still writes to: from the scan to the body of the first section.
def index? (p : Payment) : Option Slot :=
  match p.pc with
  | .quote i => some i
  | .writeFee q | .await q | .writeWrong q | .writeFeeAgain q | .acquireMark q | .mark q =>
    some q.slot
  | _ => none

end Payment
end Parking
