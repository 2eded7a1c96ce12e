import EmbeddedOS.Lab.Lab6.Bank
import EmbeddedOS.Library.Pool

open C

namespace Atm

-- A message of a client, whose `amount` is an `int`.
structure Message where
  op     : Operation
  amount : ℤ
  lower  : -2 ^ 31 ≤ amount
  upper  : amount < 2 ^ 31
deriving DecidableEq

def Message.delta (m : Message) : ℤ :=
  m.op.delta m.amount

-- What a client sends with one call of `send`.
inductive Record
  | money (m : Message)
  | exit
deriving DecidableEq

namespace Record

def text : Record → List UInt8
  | money m => m.op.name ++ ascii " " ++ decimal m.amount
  | exit    => ascii "exit"

-- All of the cleared buffer is sent.
def bytes (r : Record) : List UInt8 :=
  sprintf (.replicate 128 0) r.text

def delta : Record → ℤ
  | money m => m.delta
  | exit    => 0

end Record

inductive Client.Pc
  | p
  | send
  | v
  | exit
  | closed
deriving DecidableEq

-- A client with the messages of its loop and the counter of the loop.
structure Client where
  messages : List Message
  count    : ℕ
  pc       : Client.Pc

-- The condition of the loop.
def Client.loop (c : Client) : Client :=
  { c with pc := if c.count < c.messages.length then .p else .exit }

-- A connection: the client, the records in flight, and the thread of the server.
structure Session where
  client : Client
  wire   : List Record
  bank   : Bank

-- The semaphore of the clients and the global of the server.
structure Memory where
  sem        : ℕ
  myMoneyNow : ℤ

-- Who moves next: the client, the thread, or the connection, which hands over a record as a whole.
inductive Party
  | client
  | bank
  | wire
deriving DecidableEq

namespace Session

def start (messages : List Message) : Session where
  client := { messages, count := 0, pc := .p : Client }.loop
  wire   := []
  bank   := .start

def clientStep (m : Memory) (s : Session) : Option (Memory × Session) :=
  match s.client.pc with
  | .p      =>
    if m.sem > 0
    then some ({ m with sem := m.sem - 1 }, { s with client := { s.client with pc := .send } })
    else none
  | .send   =>
    s.client.messages[s.client.count]?.map fun message =>
      (m, { s with
        client := { s.client with pc := .v }
        wire   := s.wire ++ [.money message] })
  | .v      =>
    some ({ m with sem := m.sem + 1 },
      { s with client := { s.client with count := s.client.count + 1 }.loop })
  | .exit   =>
    some (m, { s with client := { s.client with pc := .closed }, wire := s.wire ++ [.exit] })
  | .closed => none

def bankStep (m : Memory) (s : Session) : Option (Memory × Session) :=
  (s.bank.step m.myMoneyNow).map fun (myMoneyNow, bank) => ({ m with myMoneyNow }, { s with bank })

def wireStep (m : Memory) (s : Session) : Option (Memory × Session) :=
  match s.wire with
  | r :: wire => (s.bank.recv <| .bytes r.bytes).map fun bank => (m, { s with wire, bank })
  | []        =>
    if s.client.pc = .closed then (s.bank.recv .eof).map fun bank => (m, { s with bank }) else none

def step (m : Memory) (s : Session) : Party → Option (Memory × Session)
  | .client => s.clientStep m
  | .bank   => s.bankStep m
  | .wire   => s.wireStep m

end Session

-- Any number of clients, each with its own thread of the server.
def sessions : Pool.Program Memory Session (List Message) Party Empty where
  spawn     := .start
  step _    := Session.step
  env _     := nofun

abbrev State :=
  Pool Memory Session

def State.initial : State where
  mem   := { sem := 1, myMoneyNow := 0 }
  procs := []

def lab6 : Machine State (Pool.Action (List Message) Party Empty) :=
  Pool.machine sessions

end Atm
