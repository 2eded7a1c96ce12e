import EmbeddedOS.FinalProject.Driver

open C

namespace Parking

abbrev Slot := Fin 16

-- Slots and counters of the fuel cars (0) and of the electric cars (1).
abbrev Zone := Fin 2

-- A plate as `%s` stores it in `plate[8]`.
structure Plate where
  chars     : List UInt8
  ne_nil    : chars ≠ []
  length_le : chars.length ≤ 7
  nul_free  : 0 ∉ chars
deriving DecidableEq

def Plate.letter (c : UInt8) (h : c ≠ 0) : Plate where
  chars     := [c]
  ne_nil    := List.cons_ne_nil _ _
  length_le := by simp
  nul_free  := by simpa using h.symm

def Plate.electric (plate : Plate) : Bool :=
  plate.chars.head? = some 69

def Plate.zone (plate : Plate) : Zone :=
  if plate.electric then 1 else 0

def Slot.zone (i : Slot) : Zone :=
  if i < 8 then 1 else 0

structure Car where
  entryT       : ℤ
  payT         : ℤ
  elec         : ℤ
  licencePlate : List UInt8
  pos          : ℤ

-- What the server answers.
inductive Reply
  | alreadyParked
  | noSpace
  | entrySuccess
  | noCar
  | payFirst
  | repay
  | exitSuccess
  | fee (fee : ℤ)
  | wrongAmount
  | feeAgain (fee : ℤ)
  | paymentSuccess (plate : List UInt8) (pos tpass fee : ℤ)
  | cannotFind
deriving DecidableEq

def Reply.text : Reply → List UInt8
  | alreadyParked => ascii "already parked\n"
  | noSpace       => ascii "No space\n"
  | entrySuccess  => ascii "Entry Success\n"
  | noCar         => ascii "Car doesn't exist\n"
  | payFirst      => ascii "Exit Failed, Please pay the bill\n"
  | repay         => ascii "Exit Failed, Please Repay the bill\n"
  | exitSuccess   => ascii "Exit Success\n"
  | fee n         => ascii "Fee:" ++ decimal n ++ ascii "\n"
  | wrongAmount   => ascii "Wrong Amount\n"
  | feeAgain n    => ascii "Fee:" ++ decimal n ++ ascii "$\n"
  | cannotFind    => ascii "Cannot find your car\n"
  | paymentSuccess plate pos tpass n =>
    ascii "Plate: " ++ plate ++ ascii "\nPos: " ++ decimal pos ++ ascii "\nPark time: " ++
      decimal tpass ++ ascii " minutes\nTotal Fee: " ++ decimal n ++
      ascii "$\nPayment Success\nPlease exit within 25 minutes\n"

-- The history of a run. `stored` is the plate that the slot holds just before it is written.
inductive Event
  | parked (pid : ℕ) (plate : Plate) (slot : Slot) (time : ℤ)
  | quoted (pid : ℕ) (plate : Plate) (slot : Slot) (stored : List UInt8) (time fee : ℤ)
  | marked (pid : ℕ) (plate : Plate) (slot : Slot) (stored : List UInt8)
  | credited (pid : ℕ) (plate : Plate) (slot : Slot) (fee : ℤ)
  | expired (pid : ℕ) (plate : Plate) (slot : Slot) (stored : List UInt8)
  | freed (pid : ℕ) (plate : Plate) (slot : Slot) (stored : List UInt8)
  | cleared (pid : ℕ) (plate : Plate) (slot : Slot) (stored : List UInt8)
  | replied (pid : ℕ) (reply : Reply)
deriving DecidableEq

-- The four shared memory segments, the two semaphores, the pins that the driver has set and the
-- clock. The history `log`, newest event first, is not part of the program.
structure Memory where
  car         : Slot → Car
  parkSpace   : Slot → ℤ
  spaceLeft   : Zone → ℤ
  cash        : ℤ
  semMutex    : ℕ
  semCounting : ℕ
  pins        : ℕ → ℤ
  clock       : ℤ
  log         : List Event

-- The slot that an array index selects, if it is inside of the array.
def slot? (i : ℤ) : Option Slot :=
  if h : 0 ≤ i ∧ i < 16 then some ⟨i.toNat, by omega⟩ else none

def zone? (elec : ℤ) : Option Zone :=
  if elec = 0 then some 0 else if elec = 1 then some 1 else none

namespace Memory

variable (m : Memory)

@[simps -fullyApplied]
def note (e : Event) : Memory :=
  { m with log := e :: m.log }

@[simps -fullyApplied]
def setCar (pos : Slot) (f : Car → Car) : Memory :=
  { m with car := Function.update m.car pos (f (m.car pos)) }

-- The scan over `car[]` for a plate, that each of the three requests starts with.
def lookup (plate : Plate) : Option Slot :=
  (List.finRange 16).find? fun x => (m.car x).licencePlate = plate.chars

-- `P(s)` blocks while the semaphore is zero.
def lockMutex : Option Memory :=
  if 0 < m.semMutex then some { m with semMutex := m.semMutex - 1 } else none

@[simps -fullyApplied]
def unlockMutex : Memory :=
  { m with semMutex := m.semMutex + 1 }

def lockCounting : Option Memory :=
  if 0 < m.semCounting then some { m with semCounting := m.semCounting - 1 } else none

@[simps -fullyApplied]
def unlockCounting : Memory :=
  { m with semCounting := m.semCounting + 1 }

-- Opens the device and writes the index of the slot and the value for its LED.
def light (pos : Slot) (value : UInt8) : Option Memory :=
  (etxWrite m.pins [pos.val.toUInt8, value]).map ({ m with pins := · })

end Memory
end Parking
