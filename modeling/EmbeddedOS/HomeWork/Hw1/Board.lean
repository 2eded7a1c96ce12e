import EmbeddedOS.HomeWork.Hw1.Driver
import Mathlib.Data.List.Destutter

open C

namespace Hw1

-- The level of each pin.
abbrev Pins := UInt8 → UInt8

-- What can be seen of the pins: the LEDs, and the segments of the display, which are lit at 0.
structure Frame where
  leds     : List UInt8
  segments : List UInt8
deriving DecidableEq

def look (pins : Pins) : Frame where
  leds     := gpio.map pins
  segments := gpioDisplay.map pins

def Event.apply (pins : Pins) : Event → Pins
  | gpioSetValue pin value => Function.update pins pin value
  | mdelay _               => pins

def after (pins : Pins) (events : List Event) : Pins :=
  events.foldl Event.apply pins

-- The pins can be seen as long as the driver waits.
def frames : Pins → List Event → List Frame
  | _,    []                         => []
  | pins, .gpioSetValue pin value :: events => frames (Function.update pins pin value) events
  | pins, .mdelay _ :: events        => look pins :: frames pins events

-- Someone who looks at the board sees when something changes, but not that nothing does.
def seen (pins : Pins) (events : List Event) : List Frame :=
  (frames pins events).destutter (· ≠ ·)

-- All segments are off.
def blank : List UInt8 :=
  .replicate 7 1

-- The digit that a row of the table shows.
def digit? (segments : List UInt8) : Option UInt8 :=
  (showTable.idxOf? segments).map fun i => (48 + i).toUInt8

-- How a bill is read: the distance is the number of LEDs at the start, and the digits of the price
-- are shown after these have gone out.
def readBack (fs : List Frame) : Option (ℕ × ℕ) := do
  let first ← fs.head?
  let shown := (fs.dropWhile fun f => 1 ∈ f.leds).filter fun f => f.segments ≠ blank
  let digits ← shown.mapM fun f => digit? f.segments
  return (first.leds.count 1, digitsValue digits)

end Hw1
