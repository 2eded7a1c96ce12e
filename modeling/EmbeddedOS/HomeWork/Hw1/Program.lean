import EmbeddedOS.HomeWork.Hw3.Order
import EmbeddedOS.Library.Machine

open C Delivery

namespace Hw1

-- `scanf("%u", ...)` reads blanks, a sign and digits byte by byte.
inductive Scan
  | blanks
  | signed (negative : Bool)
  | digits (negative : Bool) (n : ℕ)
deriving DecidableEq

namespace Scan

-- The scan goes on behind a byte, or it ends in front of it.
def next (c : UInt8) : Scan → Option Scan
  | blanks            =>
    if isspace c then some blanks
    else if c = '-'.toUInt8 then some <| signed true
    else if c = '+'.toUInt8 then some <| signed false
    else if isdigit c then some <| digits false (c.toNat - 48)
    else none
  | signed negative   => if isdigit c then some <| digits negative (c.toNat - 48) else none
  | digits negative n =>
    if isdigit c then some <| digits negative (10 * n + (c.toNat - 48)) else none

-- What the scan stores: the low half of the 64-bit result of `strtoul`, nothing without a digit.
def value? : Scan → Option UInt32
  | digits negative n =>
    if 2 ^ 64 ≤ n then some <| .ofNat (2 ^ 64 - 1)
    else if negative then some (-.ofNat n)
    else some <| .ofNat n
  | _ => none

end Scan

-- The price of an item of `Dessert_shop`, `Beverag_shop` and `Diner`.
def dessertShop : Item → UInt32
  | .first  => 60
  | .second => 80

def beveragShop : Item → UInt32
  | .first  => 40
  | .second => 70

def diner : Item → UInt32
  | .first  => 120
  | .second => 50

def unitPrice : Shop → Item → UInt32
  | .dessert  => dessertShop
  | .beverage => beveragShop
  | .diner    => diner

-- What `main` stores in `distance` behind the call of a shop.
def distance : Shop → UInt8
  | .dessert  => '3'.toUInt8
  | .beverage => '5'.toUInt8
  | .diner    => '8'.toUInt8

-- The call that waits for the next byte of the input. A `clear` knows the byte `ch` that has been
-- read before it.
inductive Pc
  | menu
  | menuClear (ch : UInt8)
  | order
  | orderClear (ch : UInt8)
  | enter (shop : Shop)                                    -- a shop gets its stack frame
  | choose (shop : Shop)
  | chooseClear (shop : Shop) (ch : UInt8)
  | howMany (shop : Shop) (item : Item) (scan : Scan)
  | loopClear (shop : Shop)                                -- the `clear` at the end of the loop
  | pause                                                  -- behind the shop list
  | pickUp                                                 -- behind the delivery
deriving DecidableEq

-- The variables of the program, and the buffers that it has written to `/dev/order`, newest first.
structure State where
  pc       : Pc
  price    : UInt32
  number   : UInt32
  distance : UInt8
  written  : List (List UInt8)

-- The next byte of the input, where none is its end, or the frame of a shop is set up with anything
-- in its `number`.
inductive Input
  | key (c : Option UInt8)
  | enter (number : UInt32)
deriving DecidableEq

namespace State

-- The locals of `main` hold anything at the start.
def initial (distance : UInt8) : State where
  pc       := .menu
  price    := 0
  number   := 0
  distance := distance
  written  := []

def goto (s : State) (pc : Pc) : State :=
  { s with pc }

-- The start of the next round of `main`.
def again (s : State) : State :=
  { s with price := 0, pc := .menu }

-- `write_buf`: the price is unsigned, and `%d` prints it as an `int`.
def writeBuf (s : State) : List UInt8 :=
  s.distance :: decimal (C.int s.price.toNat)

-- The end of a round. The driver has shown the order when `write` returns, so that the first `read`
-- gives '1'.
def finish (s : State) : State :=
  if s.price ≠ 0 then { s with written := s.writeBuf :: s.written, pc := .pickUp } else s.again

def menuChosen (s : State) (ch : UInt8) : State :=
  if ch = '1'.toUInt8 then s.goto .pause
  else if ch = '2'.toUInt8 then s.goto .order
  else s.finish

def orderChosen (s : State) (ch : UInt8) : State :=
  if ch = '1'.toUInt8 then s.goto <| .enter .dessert
  else if ch = '2'.toUInt8 then s.goto <| .enter .beverage
  else if ch = '3'.toUInt8 then s.goto <| .enter .diner
  else s.finish

-- A shop returns its price to `main`.
def leave (s : State) (shop : Shop) (price : UInt32) : State :=
  { s with price, distance := Hw1.distance shop }.finish

def chosen (s : State) (shop : Shop) (ch : UInt8) : State :=
  if ch = '1'.toUInt8 then s.goto <| .howMany shop .first .blanks
  else if ch = '2'.toUInt8 then s.goto <| .howMany shop .second .blanks
  else if ch = '3'.toUInt8 then s.leave shop s.price
  else if ch = '4'.toUInt8 then s.leave shop 0
  else s.goto <| .loopClear shop

-- The scan is over. Without a result `number` keeps its value, and is added all the same.
def bill (s : State) (shop : Shop) (item : Item) (scan : Scan) : State :=
  let number := scan.value?.getD s.number
  { s with number, price := s.price + unitPrice shop item * number, pc := .loopClear shop }

-- A `clear` that waits for its next byte. The end of the input is the `char` 255, which is neither
-- '\n' nor EOF.
def clear (s : State) (c : Option UInt8) : State :=
  if c.getD 255 = '\n'.toUInt8 then
    match s.pc with
    | .menuClear ch        => s.menuChosen ch
    | .orderClear ch       => s.orderChosen ch
    | .chooseClear shop ch => s.chosen shop ch
    | .loopClear shop      => s.goto <| .choose shop
    | _                    => s
  else s

def key (s : State) (c : Option UInt8) : Option State :=
  match s.pc with
  | .menu         => some <| s.goto <| .menuClear <| c.getD 255
  | .order        => some <| s.goto <| .orderClear <| c.getD 255
  | .choose shop  => some <| s.goto <| .chooseClear shop <| c.getD 255
  | .menuClear _ | .orderClear _ | .chooseClear _ _ | .loopClear _ => some <| s.clear c
  | .howMany shop item scan =>
    match c.bind scan.next with
    | some scan => some <| s.goto <| .howMany shop item scan
    | none      => some <| (s.bill shop item scan).clear c  -- the byte is pushed back
  | .pause        => some s.finish
  | .pickUp       => some s.again
  | .enter _      => none

def step (s : State) : Input → Option State
  | .key c        => s.key c
  | .enter number =>
    match s.pc with
    | .enter shop => some { s with number, pc := .choose shop }
    | _           => none

end State

def hw1 : Machine State Input where
  step := State.step

end Hw1
