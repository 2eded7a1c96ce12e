import EmbeddedOS.HomeWork.Hw1.Driver

namespace Hw1

-- Who has requested a pin.
inductive Owner
  | etx
  | other (driver : ℕ)
deriving DecidableEq

-- What the kernel has given away: device numbers, the numbers at which a cdev answers, classes,
-- devices by their class and number, and pins.
structure Kernel where
  regions : Finset ℕ
  cdevs   : Finset ℕ
  classes : Finset ℕ
  devices : Finset (ℕ × ℕ)
  owner   : UInt8 → Option Owner

-- What the kernel answers to the calls of `etx_driver_init`, where none is an error. What it
-- creates is not in use.
structure Answers (k : Kernel) where
  allocChrdevRegion : Option ℕ
  cdevAdd           : Bool
  classCreate       : Option ℕ
  deviceCreate      : Bool
  gpioIsValid       : UInt8 → Bool
  gpioRequest       : UInt8 → Bool    -- for a pin that nobody has requested
  newNumber         : ∀ dev ∈ allocChrdevRegion, dev ∉ k.regions ∧ dev ∉ k.cdevs
  newClass          : ∀ cls ∈ classCreate, cls ∉ k.classes ∧ ∀ dev, (cls, dev) ∉ k.devices

namespace Kernel

-- A pin is requested at most once, and freed for whoever has requested it.
def gpioRequest (k : Kernel) (grants : Bool) (pin : UInt8) : Option Kernel :=
  if k.owner pin = none ∧ grants
  then some { k with owner := Function.update k.owner pin (some .etx) }
  else none

def gpioFree (k : Kernel) (pin : UInt8) : Kernel :=
  { k with owner := Function.update k.owner pin none }

-- The calls that give something back have no effect if there is nothing: for the device number 0,
-- for an error pointer in the place of a class, and for what is not registered.
def unregisterChrdevRegion (k : Kernel) (dev : Option ℕ) : Kernel :=
  { k with regions := k.regions \ dev.toFinset }

def cdevDel (k : Kernel) (dev : Option ℕ) : Kernel :=
  { k with cdevs := k.cdevs \ dev.toFinset }

def classDestroy (k : Kernel) (cls : Option ℕ) : Kernel :=
  { k with classes := k.classes \ cls.toFinset }

def deviceDestroy (k : Kernel) (cls dev : Option ℕ) : Kernel :=
  { k with devices := k.devices \ (cls.toFinset ×ˢ dev.toFinset) }

-- The labels at the end of `etx_driver_init`, each of which goes on with the next one.
def rUnreg (k : Kernel) (dev : Option ℕ) : Kernel :=
  k.unregisterChrdevRegion dev

def rDel (k : Kernel) (dev : Option ℕ) : Kernel :=
  (k.cdevDel dev).rUnreg dev

def rClass (k : Kernel) (cls dev : Option ℕ) : Kernel :=
  (k.classDestroy cls).rDel dev

def rDevice (k : Kernel) (cls dev : Option ℕ) : Kernel :=
  (k.deviceDestroy cls dev).rClass cls dev

def rGpio (k : Kernel) (cls dev : Option ℕ) : Kernel :=
  (gpioDisplay.foldl gpioFree <| gpio.foldl gpioFree k).rDevice cls dev

end Kernel

-- The labels to which the loops over the pins jump.
inductive Label
  | rDevice
  | rGpio
deriving DecidableEq

variable {k : Kernel}

-- Each of the two loops that check and request pins.
def requestAll (a : Answers k) : List UInt8 → Kernel → Kernel × Option Label
  | [],          k => (k, none)
  | pin :: pins, k =>
    if ¬a.gpioIsValid pin then
      (k, some .rDevice)
    else
      match k.gpioRequest (a.gpioRequest pin) pin with
      | some k => requestAll a pins k
      | none   => (k, some .rGpio)

def requestPins (a : Answers k) (k : Kernel) : Kernel × Option Label :=
  match requestAll a gpio k with
  | (k, none)       => requestAll a gpioDisplay k
  | (k, some label) => (k, some label)

-- The value that `etx_driver_init` returns, and what the kernel has given away then. The pins are
-- configured behind the last jump, which takes nothing more.
def etxDriverInit (a : Answers k) : ℤ × Kernel :=
  match a.allocChrdevRegion with
  | none     => (-1, k.rUnreg none)
  | some dev =>
    let k₁ := { k with regions := insert dev k.regions }
    if ¬a.cdevAdd then (-1, k₁.rDel dev)
    else
      let k₂ := { k₁ with cdevs := insert dev k₁.cdevs }
      match a.classCreate with
      | none     => (-1, k₂.rClass none dev)
      | some cls =>
        let k₃ := { k₂ with classes := insert cls k₂.classes }
        if ¬a.deviceCreate then (-1, k₃.rDevice cls dev)
        else
          let k₄ := { k₃ with devices := insert (cls, dev) k₃.devices }
          match requestPins a k₄ with
          | (k₅, none)          => (0, k₅)
          | (k₅, some .rDevice) => (-1, k₅.rDevice cls dev)
          | (k₅, some .rGpio)   => (-1, k₅.rGpio cls dev)

end Hw1
