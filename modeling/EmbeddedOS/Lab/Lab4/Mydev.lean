import EmbeddedOS.Library.CString
import EmbeddedOS.Library.Fifo
import EmbeddedOS.Library.Machine

open C

namespace Mydev

-- The segments of the letters, and last the ones of the blank.
def segForC : List String :=
  ["1111001100010001", "0000011100000101", "1100111100000000", "0000011001000101",
    "1000011100000001", "1000001100000001", "1001111100010000", "0011001100010001",
    "1100110001000100", "1100010001000100", "0000000001101100", "0000111100000000",
    "0011001110100000", "0011001110001000", "1111111100000000", "1000001101000001",
    "0111000001010000", "1110001100011001", "1101110100010001", "1100000001000100",
    "0011111100000000", "0000001100100010", "0011001100001010", "0000000010101010",
    "0000000010100100", "1100110000100010", "0000000000000000"]

-- The string literal at an index of `seg_for_c`, none is an access outside of the array.
def seg? (i : ℤ) : Option (List UInt8) :=
  if 0 ≤ i then segForC[i.toNat]?.map (ascii · ++ [0]) else none

-- `copy_to_user` copies bytes of a literal, as long as it has as many.
def copyToUser (name : List UInt8) (count : ℕ) : Option (List UInt8) :=
  if count ≤ name.length then some (name.take count) else none

def isLetter (b : UInt8) : Bool :=
  65 ≤ b && b ≤ 90

-- The globals of the module.
structure Device where
  temp        : Vector UInt8 100
  inputCount  : UInt8
  outputCount : UInt8

namespace Device

def initial : Device where
  temp        := .replicate 100 0
  inputCount  := 0
  outputCount := 0

-- What `my_read` copies to the user and the globals that it leaves, none if it reads outside of
-- its arrays.
def myRead (d : Device) (count : ℕ) : Option (List UInt8 × Device) :=
  if d.inputCount > d.outputCount then do
    let c ← d.temp[d.outputCount.toNat]?
    let name ← seg? (c.toNat - 65)
    let buf ← copyToUser name count
    return (buf, { d with outputCount := d.outputCount + 1 })
  else do
    let blank ← seg? 26
    let buf ← copyToUser blank count
    return (buf, if d.inputCount = d.outputCount
      then { d with inputCount := 0, outputCount := 0 }
      else d)

-- `my_write` stores one letter at most, none if it writes outside of its arrays.
def myWrite (d : Device) (buf : List UInt8) : Option Device :=
  let recBuf := overlay buf [0]
  if h : recBuf.length = 1 then
    let c := recBuf.get ⟨0, h ▸ Nat.one_pos⟩
    if ¬isLetter c then some d
    else if hi : d.inputCount.toNat < 100 then
      some { d with temp := d.temp.set d.inputCount.toNat c, inputCount := d.inputCount + 1 }
    else none
  else none

end Device

-- The calls which have been made, and what was read.
inductive Event
  | wrote (b : UInt8)
  | read (buf : List UInt8)
deriving DecidableEq

-- The device, none after an access outside of its arrays. The history `log`, newest event first, is
-- not part of the program.
structure State where
  device : Option Device
  log    : List Event

def State.initial : State where
  device := some .initial
  log    := []

inductive Call
  | write (b : UInt8)    -- of one byte
  | read                 -- of 16 bytes
deriving DecidableEq

def step (s : State) : Call → Option State
  | .write b => s.device.map fun d => { device := d.myWrite [b], log := .wrote b :: s.log }
  | .read    => s.device.map fun d =>
    match d.myRead 16 with
    | some (buf, d) => { device := some d, log := .read buf :: s.log }
    | none          => { s with device := none }

def lab4 : Machine State Call where
  step := step

end Mydev
