import EmbeddedOS.Library.CString
import EmbeddedOS.Library.Machine

open C

namespace Hw1

-- What the driver does to its pins.
inductive Event
  | gpioSetValue (pin value : UInt8)
  | mdelay (ms : ℕ)
deriving DecidableEq

-- The pins of the LEDs, and of the segments of the display.
def gpio : List UInt8 :=
  [25, 8, 7, 1, 12, 16, 20, 21]

def gpioDisplay : List UInt8 :=
  [11, 0, 5, 6, 13, 19, 26]

-- The levels of the segments for each digit, called `show` in the driver.
def showTable : List (List UInt8) :=
  [[0, 0, 0, 0, 0, 0, 1],
   [1, 0, 0, 1, 1, 1, 1],
   [0, 0, 1, 0, 0, 1, 0],
   [0, 0, 0, 0, 1, 1, 0],
   [1, 0, 0, 1, 1, 0, 0],
   [0, 1, 0, 0, 1, 0, 0],
   [0, 1, 0, 0, 0, 0, 0],
   [0, 0, 0, 1, 1, 0, 1],
   [0, 0, 0, 0, 0, 0, 0],
   [0, 0, 0, 1, 1, 0, 0]]

-- The functions of the driver give the events in their order, none stands for an access outside of
-- an array. A distance below '0' does not light any LED.
def deliveryDistance (index : UInt8) : Option (List Event) := do
  let n := index.toNat - '0'.toNat
  let on ← (List.range n).mapM fun i => gpio[i]?.map (.gpioSetValue · 1)
  let off ← (List.range n).reverse.mapM fun i =>
    gpio[i]?.map fun pin => [.mdelay 1000, .gpioSetValue pin 0]
  return on ++ off.flatten

def display (num : UInt8) : Option (List Event) := do
  let row ← if num < '0'.toUInt8 then none else showTable[num.toNat - '0'.toNat]?
  return gpioDisplay.map (.gpioSetValue · 1) ++ [.mdelay 20] ++
    List.zipWith .gpioSetValue gpioDisplay row ++ [.mdelay 480]

-- The loop of `etx_write` over the bytes behind the distance.
def displays (recBuf : List UInt8) (len : ℕ) : Option (List Event) := do
  let digits ← (List.range' 1 (len - 1)).mapM fun i => recBuf[i]?.bind display
  return digits.flatten

def etxWrite (buf : List UInt8) : Option (List Event) :=
  if buf.length ≤ 100 then do
    let recBuf := overlay buf (.replicate 100 0)
    let distance ← deliveryDistance <| recBuf.headD 0
    let price ← displays recBuf buf.length
    return distance ++ price
  else
    none

-- The loop of `etx_write` as it counts: with 8 bits, and up to a length that it has not looked at.
-- `displayed` is what it has passed to `display`, with none for a byte outside of `rec_buf`.
structure DisplayLoop where
  i         : UInt8
  displayed : List (Option UInt8)

def DisplayLoop.start : DisplayLoop where
  i         := 1
  displayed := []

-- The end of a run is the end of the loop.
def displayLoop (recBuf : Vector UInt8 100) (len : ℕ) : Machine DisplayLoop Unit where
  step l _ :=
    if l.i.toNat < len
    then some { i := l.i + 1, displayed := l.displayed ++ [recBuf[l.i.toNat]?] }
    else none

end Hw1
