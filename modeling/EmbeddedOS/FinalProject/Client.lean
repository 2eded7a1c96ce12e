import EmbeddedOS.FinalProject.Payment
import EmbeddedOS.Library.Machine
import EmbeddedOS.Library.Text

open C Text

namespace Parking

-- A thread that runs `PAY`, with the statement that it executes next.
inductive Client
  | data      -- data=ss.recv(256), and the reply that is cut out of it
  | reply     -- reply=ss.recv(256)
  | closed    -- behind the loop
  | raised    -- ended by an exception
deriving DecidableEq

def Client.ended : Client → Bool
  | closed | raised => true
  | data | reply    => false

-- The 256 bytes that the next statement of a payment writes. `write(fd, "Wrong Amount\n", 256)`
-- also sends what stands behind the literal, `rodata`.
def Payment.record? (rodata : List UInt8) (m : Memory) (p : Payment) : Option (List UInt8) :=
  match p.pc with
  | .writeFee q      => some q.buf
  | .writeWrong _    => some <| ascii "Wrong Amount\n" ++ 0 :: rodata
  | .writeFeeAgain q => some <| sprintf q.buf (Reply.feeAgain q.fee).text
  | .writeSuccess q  =>
    let c := m.car q.slot
    some <| sprintf q.buf (Reply.paymentSuccess c.licencePlate c.pos q.tpass q.fee).text
  | .writeNotFound   => some <| sprintf (.replicate 256 0) Reply.cannotFind.text
  | _ => none

-- The last write is followed by `close(fd)`.
def Payment.closed (p : Payment) : Bool :=
  match p.pc with
  | .releaseCounting | .exited => true
  | _ => false

-- A payment of the server and its client, with the records and the replies that are on their way.
structure Dialogue where
  mem     : Memory
  payment : Payment
  client  : Client
  records : List (List UInt8)
  replies : List (List UInt8)

-- Whose turn it is.
inductive Turn
  | server
  | client
deriving DecidableEq

namespace Dialogue

variable (pid : ℕ) (rodata : List UInt8) (d : Dialogue)

-- `recv` waits for a record, and it returns nothing once the connection is closed.
def recv? : Option (List UInt8 × Dialogue) :=
  match d.records with
  | record :: records => some (record, { d with records })
  | []                => if d.payment.closed then some ([], d) else none

def clientStep : Option Dialogue :=
  match d.client with
  | .data  => d.recv?.map fun (bytes, d) =>
    match decode bytes with
    | none      => { d with client := .raised }
    | some data =>
      match split? "Fee:".toList data with
      | some fee => { d with client := .reply, replies := d.replies ++ [utf8 <| strip fee] }
      | none     => d
  | .reply => d.recv?.map fun (bytes, d) =>
    match decode bytes with
    | none       => { d with client := .raised }
    | some reply =>
      if contains "Wrong Amount".toList reply then { d with client := .data }
      else if contains "Payment Success".toList reply then { d with client := .closed }
      else { d with client := .data }
  | .closed | .raised => none

def serverStep : Option Dialogue :=
  match d.payment.pc with
  | .await _ =>
    match d.replies with
    | []               => none
    | reply :: replies =>
      (d.payment.read reply).map fun payment => { d with payment, replies }
  | _ =>
    (d.payment.step pid d.mem).map fun (mem, payment) =>
      { d with mem, payment, records := d.records ++ (d.payment.record? rodata d.mem).toList }

end Dialogue

def dialogue (pid : ℕ) (rodata : List UInt8) : Machine Dialogue Turn where
  step d
    | .server => d.serverStep pid rodata
    | .client => d.clientStep

-- The server has accepted the connection and has read the request for the plate.
def Dialogue.start (mem : Memory) (plate : Plate) : Dialogue where
  mem     := mem
  payment := { plate, pc := .acquireCounting }
  client  := .data
  records := []
  replies := []

end Parking
