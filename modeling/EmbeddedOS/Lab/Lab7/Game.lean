import EmbeddedOS.Library.CInt
import EmbeddedOS.Library.CString
import EmbeddedOS.Library.Machine

open C

namespace Guessing

-- The block that the two programs share.
structure Data where
  guess  : ℤ
  result : List UInt8

namespace Data

-- The answers of `game` are compared as strings.
def Says (d : Data) (text : String) : Prop :=
  string? d.result = some (ascii text)
deriving Decidable

-- `Check_handler` of `game`, where `ans` is the number to guess.
def check (ans : ℤ) (d : Data) : Data :=
  if d.guess > ans then { d with result := strcpy d.result <| ascii "smaller" }
  else if d.guess < ans then { d with result := strcpy d.result <| ascii "bigger" }
  else { d with result := strcpy d.result <| ascii "bingo" }

end Data

-- The globals of `guess`, the shared block, and whether SIGUSR1 is pending for `game`.
structure State where
  lowerBound : ℤ
  upperBound : ℤ
  guess      : ℤ
  myData     : Data
  pending    : Bool
  exited     : Bool

namespace State

-- `guess` has been started with an upper bound on a block that may have been used before.
def initial (upperBound : ℤ) (myData : Data) : State where
  lowerBound := 1
  upperBound := upperBound
  guess      := 0
  myData     := myData
  pending    := false
  exited     := false

-- The next guess is written to the block, and `game` gets a SIGUSR1.
@[simps]
def guessBetween (s : State) (lowerBound upperBound : ℤ) : State :=
  let guess := (C.int (upperBound + lowerBound)).tdiv 2
  { s with lowerBound, upperBound, guess, myData := { s.myData with guess }, pending := true }

-- `guess_handler`, which runs at each tick of the timer.
def guessHandler (s : State) : State :=
  if s.myData.Says "smaller" then s.guessBetween s.lowerBound <| C.int (s.guess - 1)
  else if s.myData.Says "bigger" then s.guessBetween (C.int (s.guess + 1)) s.upperBound
  else if s.myData.Says "bingo" then { s with exited := true }
  else s.guessBetween s.lowerBound s.upperBound

end State

inductive Action
  | tick    -- the timer of `guess` expires
  | check   -- `game` handles the pending SIGUSR1
deriving DecidableEq

def step (ans : ℤ) (s : State) : Action → Option State
  | .tick  => if s.exited then none else some s.guessHandler
  | .check =>
    if s.pending then some { s with myData := s.myData.check ans, pending := false } else none

-- The two processes. A signal that is sent while another one is pending is lost.
def lab7 (ans : ℤ) : Machine State Action where
  step := step ans

end Guessing
