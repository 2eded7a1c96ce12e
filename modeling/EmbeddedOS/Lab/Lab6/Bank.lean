import EmbeddedOS.Library.CInt
import EmbeddedOS.Library.CString

open C

namespace Atm

inductive Operation
  | deposit
  | withdraw
deriving DecidableEq

namespace Operation

def name : Operation → List UInt8
  | deposit  => ascii "deposit"
  | withdraw => ascii "withdraw"

-- What an amount of money adds to the balance.
def delta : Operation → ℤ → ℤ
  | deposit,  money => money
  | withdraw, money => -money

-- The new value of `my_money_now`.
def apply : Operation → ℤ → ℤ → ℤ
  | deposit,  money, myMoneyNow => C.int (myMoneyNow + money)
  | withdraw, money, myMoneyNow => C.int (myMoneyNow - money)

end Operation

-- `sscanf(receive, "%s %d", what_to_do, &money)`, where `money` has been set to 0. It is none if
-- the buffer is not terminated or the word does not fit into `what_to_do[10]`.
def scan (receive whatToDo : List UInt8) : Option (List UInt8 × ℤ) :=
  (string? receive).bind fun text =>
    match scanWord text with
    | none              => some (whatToDo, 0)
    | some (word, rest) => if word.length < 10 then some (word, (scanInt rest).getD 0) else none

-- The statements of `bank`. An update reads `my_money_now` and then stores the sum.
inductive Bank.Pc
  | recv
  | handle
  | load (op : Operation) (money : ℤ)
  | store (op : Operation) (money myMoneyNow : ℤ)
  | ended
  | faulted
deriving DecidableEq

-- A thread that runs `bank`.
structure Bank where
  receive  : List UInt8
  whatToDo : List UInt8
  pc       : Bank.Pc
deriving DecidableEq

namespace Bank

def start : Bank where
  receive  := .replicate 128 0
  whatToDo := []
  pc       := .recv

@[simps]
def goto (b : Bank) (pc : Pc) : Bank :=
  { b with pc }

-- Everything but 0 lets the loop go on, and an error leaves the buffer as it was.
def recv (b : Bank) : Received → Option Bank
  | .bytes bytes =>
    if b.pc = .recv ∧ 1 ≤ bytes.length ∧ bytes.length ≤ 128
    then some { b with receive := overlay bytes b.receive, pc := .handle }
    else none
  | .eof         => if b.pc = .recv then some (b.goto .ended) else none
  | .error       => if b.pc = .recv then some (b.goto .handle) else none

-- The branch for the command and its amount.
def dispatch (b : Bank) (money : ℤ) : Bank :=
  if b.whatToDo = Operation.name .deposit then b.goto <| .load .deposit money
  else if b.whatToDo = Operation.name .withdraw then b.goto <| .load .withdraw money
  else if b.whatToDo = ascii "exit" then b.goto .ended
  else b.goto .recv

-- A step between two calls of `recv`, with the value of `my_money_now` before it and after it.
def step (myMoneyNow : ℤ) (b : Bank) : Option (ℤ × Bank) :=
  match b.pc with
  | .handle               =>
    match scan b.receive b.whatToDo with
    | some (whatToDo, money) => some (myMoneyNow, { b with whatToDo }.dispatch money)
    | none                   => some (myMoneyNow, b.goto .faulted)
  | .load op money        => some (myMoneyNow, b.goto <| .store op money myMoneyNow)
  | .store op money value => some (op.apply money value, b.goto .recv)
  | .recv | .ended | .faulted => none

-- Up to `n` steps.
def run : ℕ → ℤ × Bank → ℤ × Bank
  | 0,     x      => x
  | n + 1, (m, b) =>
    match b.step m with
    | some x => run n x
    | none   => (m, b)

-- The thread on its own, for what `recv` returns one after the other. Three steps get it from one
-- call to the next, and nothing is received any more after the loop has been left.
def serve : ℤ × Bank → List Received → ℤ × Bank
  | x,      []      => x
  | (m, b), r :: rs =>
    match b.recv r with
    | some b => serve (run 3 (m, b)) rs
    | none   => (m, b)

end Bank
end Atm
