import EmbeddedOS.HomeWork.Hw1.Board
import EmbeddedOS.HomeWork.Hw1.Program
import EmbeddedOS.Library.Decimal

open C Delivery

namespace Hw1

-- What `etx_driver_init` and `etx_release` do to the pins.
def configure : List Event :=
  gpio.map (.gpioSetValue · 0) ++ gpioDisplay.map (.gpioSetValue · 1)

def etxRelease : List Event :=
  gpioDisplay.map (.gpioSetValue · 1)

-- The program and the board, with all that could be seen of the board so far: as long as the driver
-- waits, and as long as the program waits for its next input.
structure Session where
  state : State
  pins  : Pins
  seen  : List Frame

namespace Session

def start (distance : UInt8) (pins : Pins) : Session where
  state := .initial distance
  pins  := after pins configure
  seen  := [look (after pins configure)]

-- A step of the program, with what the calls of `write` and `close` do that it makes. There is no
-- result if `write` leaves an array. The program closes the device at the end of each round, with
-- which it comes to the menu.
def step (s : Session) (x : Input) : Option Session :=
  (hw1.step s.state x).bind fun state =>
    (if state.written = s.state.written then some []
      else state.written.head?.bind etxWrite).map fun written =>
        let events := written ++ if state.pc = .menu then etxRelease else []
        { state
          pins := after s.pins events
          seen := s.seen ++ frames s.pins events ++ [look (after s.pins events)] }

def inputs (s : Session) (xs : List Input) : Option Session :=
  xs.foldlM step s

end Session

-- Someone who writes down what the board shows, and who only sees that something changes. The bills
-- are the kilometers and the digits of each, newest first.
structure Reader where
  last  : Option Frame
  bills : List (ℕ × List UInt8)

def Frame.lit (f : Frame) : Bool :=
  1 ∈ f.leds

-- A bill starts when LEDs go on.
def Reader.look (r : Reader) (f : Frame) : Option Reader :=
  if r.last = some f then some r
  else if f.lit then
    if r.last.any Frame.lit then some { r with last := f }
    else some { last := f, bills := (f.leds.count 1, []) :: r.bills }
  else if f.segments = blank then some { r with last := f }
  else
    match r.bills with
    | []                => none
    | (km, ds) :: bills =>
      (digit? f.segments).map fun d => { last := f, bills := (km, ds ++ [d]) :: bills }

def readBills (fs : List Frame) : Option (List (ℕ × ℕ)) :=
  (fs.foldlM Reader.look ⟨none, []⟩).map fun r =>
    r.bills.reverse.map fun (km, ds) => (km, digitsValue ds)

-- What a customer chooses in a shop, with how much of it.
abbrev Choices := List (Item × ℕ)

def cost (shop : Shop) (choices : Choices) : ℕ :=
  (choices.map fun (item, n) => (unitPrice shop item).toNat * n).sum

-- One round through the menu of `main`. A shop is left with or without the order, which costs
-- something that `%d` can print.
inductive Round
  | browse (key : UInt8)
  | cancelled (shop : Shop) (number : UInt32) (choices : Choices)
  | ordered (shop : Shop) (number : UInt32) (choices : Choices) (key : UInt8)
    (pos : 0 < cost shop choices) (lt : cost shop choices < 2 ^ 31)

def shopKey : Shop → String
  | .dessert  => "1"
  | .beverage => "2"
  | .diner    => "3"

def itemKey : Item → String
  | .first  => "1"
  | .second => "2"

-- A line that is typed, and the choice of a shop with whatever is in its `number` then.
def line (text : List UInt8) : List Input :=
  (text ++ ['\n'.toUInt8]).map (.key ∘ some)

def dialogue (shop : Shop) (number : UInt32) (choices : Choices) : List Input :=
  line (ascii "2") ++ line (ascii (shopKey shop)) ++ [.enter number] ++
    choices.flatMap fun (item, n) => line (ascii (itemKey item)) ++ line (numeral n)

namespace Round

def inputs : Round → List Input
  | browse key                         => line (ascii "1") ++ [.key key]
  | cancelled shop number choices       => dialogue shop number choices ++ line (ascii "4")
  | ordered shop number choices key _ _ =>
    dialogue shop number choices ++ line (ascii "3") ++ [.key key]

-- The kilometers and the price of a bill.
def bills : Round → List (ℕ × ℕ)
  | ordered shop _ choices _ _ _ => [((distance shop).toNat - 48, cost shop choices)]
  | _                            => []

end Round
end Hw1
