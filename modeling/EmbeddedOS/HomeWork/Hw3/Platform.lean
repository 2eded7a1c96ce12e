import EmbeddedOS.HomeWork.Hw3.Order
import EmbeddedOS.Library.Pool

open C

namespace Delivery

-- The index into `delivery_waiting_time`. Each courier has its own semaphore.
inductive Courier
  | first
  | second
deriving DecidableEq

def Courier.other : Courier → Courier
  | first  => second
  | second => first

-- What a session sends to its client.
inductive Reply
  | shopList
  | pleaseOrder
  | waitFew
  | longWait
  | arrived (price : ℤ)
  | order (text : List UInt8)
deriving DecidableEq

def Reply.text : Reply → List UInt8
  | shopList      =>
    ascii "Dessert shop:3km\n- cookie:$60|cake:$80\nBeverage shop:5km\n- tea:$40|boba:$70\n" ++
      ascii "Diner:8km\n- fried-rice:$120|Egg-drop-soup:$50\n"
  | pleaseOrder   => ascii "Please order some meals\n"
  | waitFew       => ascii "Please wait a few minutes...\n"
  | longWait      => ascii "Your delivery will take a long time, do you want to wait?\n"
  | arrived price =>
    ascii "Delivery has arrived and you need to pay " ++ decimal price ++ ascii "$\n"
  | order text    => text

-- The history of a run. A session is named by the index of its thread.
inductive Event
  | confirmed (pid : ℕ) (price : ℤ)                    -- 'confirm' is handled, with this price
  | committed (pid : ℕ) (k : Courier) (flag : ℤ)       -- an order takes effect on a courier
  | ticked (k : Courier)
  | sent (pid : ℕ) (flag : ℤ) (reply : Reply)
deriving DecidableEq

-- The globals, and the courier that the counter thread looks at next. The history `log`, newest
-- event first, is not part of the program.
structure Memory where
  deliveryWaitingTime : Courier → ℤ
  turn                : Courier
  log                 : List Event

namespace Memory

variable (m : Memory)

@[simps -fullyApplied]
def note (e : Event) : Memory :=
  { m with log := e :: m.log }

@[simps -fullyApplied]
def setWaitingTime (k : Courier) (n : ℤ) : Memory :=
  { m with deliveryWaitingTime := Function.update m.deliveryWaitingTime k n }

-- One of the two sections of the loop of `counter`.
def tick : Memory :=
  let k := m.turn
  let n := m.deliveryWaitingTime k
  { (m.setWaitingTime k <| if n > 0 then n - 1 else n).note (.ticked k) with turn := k.other }

end Memory

-- A thread that runs `Delivery_platform`, with the statement that it executes next.
inductive Platform.Pc
  | recv
  | handle                              -- the comparisons of the message
  | addYes (k : Courier)                -- the section of 'Yes'
  | readFirst                           -- the sections of 'confirm'
  | readSecond (temp1 : ℤ)
  | choose (temp1 temp2 : ℤ)
  | writeBack (k : Courier) (temp : ℤ)
  | sendWait (temp : ℤ)                 -- 'Please wait a few minutes...'
  | sleep (i : ℤ)
  | deliver                             -- 'Delivery has arrived and you need to pay %d$'
  | send (r : Reply)                    -- another reply, and then the next message
  | closed
  | faulted
deriving DecidableEq

-- `who` is the courier that the last 'confirm' has chosen, none stands for its initial value 2.
structure Platform where
  receive : List UInt8
  book    : Book
  who     : Option Courier
  pc      : Platform.Pc

-- What happens to a thread: it executes its next statement, or its `recv` returns bytes, an error,
-- or the end of the stream.
inductive Input
  | run
  | bytes (bytes : List UInt8)
  | error
  | eof
deriving DecidableEq

namespace Platform

def start : Platform where
  receive := .replicate 256 0
  book    := .initial
  who     := none
  pc      := .recv

@[simps]
def goto (p : Platform) (pc : Pc) : Platform :=
  { p with pc }

-- The branches on the string that the buffer holds.
def handle (pid : ℕ) (m : Memory) (p : Platform) (receive : List UInt8) : Memory × Platform :=
  if receive = ascii "cancel\n" ∨ receive = ascii "No\n" then
    (m, p.goto .closed)
  else if receive = ascii "Yes\n" then
    match p.who with
    | some k => (m, p.goto <| .addYes k)
    | none   => (m, p.goto <| .sendWait 0)
  else if receive = ascii "shop list\n" then
    (m, p.goto <| .send .shopList)
  else if receive = ascii "confirm\n" then
    if p.book.price = 0
    then (m.note <| .confirmed pid 0, p.goto <| .send .pleaseOrder)
    else (m.note <| .confirmed pid p.book.price, p.goto .readFirst)
  else
    let s := scanOrder receive
    if ¬s.fits then
      (m, p.goto .faulted)
    else if s.orderCheck = ascii "order" then
      match p.book.order s.itemCheck s.numCheck with
      | some book =>
        let text := book.orderTemp.takeWhile (· ≠ 0)
        (m, { p with book, pc := .send <| .order <| sprintf (.replicate 256 0) text })
      | none => (m, p.goto <| .send <| .order p.book.orderTemp)
    else
      (m, p.goto .recv)

def step (pid : ℕ) (m : Memory) (p : Platform) : Option (Memory × Platform) :=
  match p.pc with
  | .handle             =>
    match string? p.receive with
    | some receive => some <| p.handle pid m receive
    | none         => some (m, p.goto .faulted)
  | .addYes k           =>
    let temp := C.int (m.deliveryWaitingTime k + p.book.flag)
    some ((m.setWaitingTime k temp).note <| .committed pid k p.book.flag, p.goto <| .sendWait temp)
  | .readFirst          =>
    some (m, p.goto <| .readSecond <| C.int (m.deliveryWaitingTime .first + p.book.flag))
  | .readSecond temp1   =>
    some (m, p.goto <| .choose temp1 <| C.int (m.deliveryWaitingTime .second + p.book.flag))
  | .choose temp1 temp2 =>
    let (k, temp) := if temp1 < temp2 then (Courier.first, temp1) else (.second, temp2)
    let p := { p with who := some k }
    if temp1 < 30 ∨ temp2 < 30
    then some (m, p.goto <| .writeBack k temp)
    else some (m, p.goto <| .send .longWait)
  | .writeBack k temp   =>
    some ((m.setWaitingTime k temp).note <| .committed pid k p.book.flag, p.goto <| .sendWait temp)
  | .sendWait temp      =>
    some (m.note <| .sent pid p.book.flag .waitFew, p.goto <| .sleep temp)
  | .sleep i            =>
    if i > 0 then some (m, p.goto <| .sleep (i - 1)) else some (m, p.goto .deliver)
  | .deliver            =>
    some (m.note <| .sent pid p.book.flag <| .arrived p.book.price, p.goto .closed)
  | .send r             => some (m.note <| .sent pid p.book.flag r, p.goto .recv)
  | .recv | .closed | .faulted => none

-- `recv` stores the bytes at the start of the buffer and leaves the rest of it as it was. An error
-- is not 0, so that the buffer is handled once more.
def input (pid : ℕ) (m : Memory) (p : Platform) : Input → Option (Memory × Platform)
  | .run         => p.step pid m
  | .bytes bytes =>
    if p.pc = .recv ∧ 1 ≤ bytes.length ∧ bytes.length ≤ 256
    then some (m, { p with receive := overlay bytes p.receive, pc := .handle })
    else none
  | .error       => if p.pc = .recv then some (m, p.goto .handle) else none
  | .eof         => if p.pc = .recv then some (m, p.goto .closed) else none

end Platform

-- The threads of the customers over the two backlogs. The environment is the counter thread.
def platforms : Pool.Program Memory Platform Unit Input Unit where
  spawn _ := .start
  step    := Platform.input
  env m _ := some m.tick

-- The threads of the customers over backlogs that can be anything at any time.
def sessions : Pool.Program Memory Platform Unit Input (Courier → ℤ) where
  spawn _ := .start
  step    := Platform.input
  env m v := some { m with deliveryWaitingTime := v }

abbrev State :=
  Pool Memory Platform

def State.initial : State where
  mem   := { deliveryWaitingTime := fun _ => 0, turn := .first, log := [] }
  procs := []

-- The thread whose next statement is executed.
def State.running? {ε : Type} (s : State) : Pool.Action Unit Input ε → Option Platform
  | .act pid .run => s.procs[pid]?
  | _ => none

-- The schedules in which a thread executes its next `n` statements, and in which it gets a message.
def statements {ε : Type} (pid n : ℕ) : List (Pool.Action Unit Input ε) :=
  .replicate n (.act pid .run)

def message {ε : Type} (pid : ℕ) (text : String) : Pool.Action Unit Input ε :=
  .act pid <| .bytes <| ascii text ++ [0]

end Delivery
